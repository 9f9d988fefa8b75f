import LcmX.EntityPlatform

/-!
# The platform-id index is not reached

An add or an attach asks for the holder of its platform id first, a split retires
before it copies, and an undo whose platform id is held is refused. Only a holder
that the trusted reader does not see is left to the index.
-/
namespace EntityStore

open ChangeLog Fallible Draft

/-! ## Platform ids -/

/-- What `str.lower` does: once is enough, no colon and no text comes or goes. -/
structure Unicode.Lowers (u : Unicode) : Prop where
  idem : ∀ x, u.lower (u.lower x) = u.lower x
  colon : ∀ x : String, ':' ∉ x.toList → ':' ∉ (u.lower x).toList
  nonempty : ∀ x, x ≠ "" → u.lower x ≠ ""

theorem splitColon_some {text a b : String} (h : splitColon text = some (a, b)) : ':' ∉ a.toList := by
  unfold splitColon at h
  split at h
  · cases h
  · cases h
    rw [String.toList_ofList]
    intro hin
    simpa using List.all_eq_true.mp List.all_takeWhile _ hin

theorem splitColon_join {a : String} (b : String) (h : ':' ∉ a.toList) : splitColon (a ++ ":" ++ b) = some (a, b) := by
  have htext : (a ++ ":" ++ b).toList = a.toList ++ ':' :: b.toList := by
    rw [String.toList_append, String.toList_append, List.append_assoc]
    rfl
  have hpred : ∀ x ∈ a.toList, decide (x ≠ ':') = true := by
    intro x hx
    rw [decide_eq_true_eq]
    rintro rfl
    exact h hx
  unfold splitColon
  rw [htext, List.dropWhile_append_of_pos hpred, List.takeWhile_append_of_pos hpred,
    List.dropWhile_cons_of_neg (by simp), List.takeWhile_cons_of_neg (by simp), List.append_nil, String.ofList_toList]
  dsimp only
  rw [String.ofList_toList]

variable {u : Unicode}

/-- A platform id in its normal form, with its two parts. -/
theorem platformId_ok {pid norm : String} (h : platformId u pid = .ok norm) :
    ∃ platform identifier, ':' ∉ platform.toList ∧ platform ≠ "" ∧ identifier ≠ "" ∧
      norm = u.lower platform ++ ":" ++ identifier := by
  unfold platformId at h
  split at h
  · cases h
  · rename_i platform identifier hsplit
    split at h
    · cases h
    · rename_i hnonempty
      cases h
      obtain ⟨hplatform, hidentifier⟩ := not_or.mp hnonempty
      exact ⟨platform, identifier, splitColon_some hsplit, hplatform, hidentifier, rfl⟩

theorem platformId_join (hu : u.Lowers) {platform identifier : String}
    (hcolon : ':' ∉ platform.toList) (hplatform : platform ≠ "")
    (hidentifier : identifier ≠ "") :
    platformId u (u.lower platform ++ ":" ++ identifier) = .ok (u.lower platform ++ ":" ++ identifier) := by
  unfold platformId
  rw [splitColon_join identifier (hu.colon platform hcolon)]
  dsimp only
  rw [if_neg (not_or.mpr ⟨hu.nonempty platform hplatform, hidentifier⟩), normalizePlatformId, hu.idem]

/-- Normal forms are kept. -/
theorem platformId_idem (hu : u.Lowers) {pid norm : String} (h : platformId u pid = .ok norm) :
    platformId u norm = .ok norm := by
  obtain ⟨platform, identifier, hcolon, hplatform, hidentifier, rfl⟩ := platformId_ok h
  exact platformId_join hu hcolon hplatform hidentifier

/-- The parts of a normal form give it back. -/
theorem platformId_parts (hu : u.Lowers) {pid norm : String} (h : platformId u pid = .ok norm) :
    namespaceOf norm ≠ "" ∧ platformId u (normalizePlatformId u (namespaceOf norm) (valueOf norm)) = .ok norm := by
  obtain ⟨platform, identifier, hcolon, hplatform, hidentifier, rfl⟩ := platformId_ok h
  have hsplit := splitColon_join identifier (hu.colon platform hcolon)
  have hname : namespaceOf (u.lower platform ++ ":" ++ identifier) = u.lower platform := by
    unfold namespaceOf
    rw [hsplit]
    rfl
  have hvalue : valueOf (u.lower platform ++ ":" ++ identifier) = identifier := by
    unfold valueOf
    rw [hsplit]
    rfl
  rw [hname, hvalue, normalizePlatformId, hu.idem]
  exact ⟨hu.nonempty platform hplatform, platformId_join hu hcolon hplatform hidentifier⟩

/-! ## Failures apart from the index -/

/-- The refusals that are an `EntityOpRefused`. -/
def Refusal.typed : Refusal → Bool
  | .hopLimit | .assertionsUnverified | .lacksPayload | .constraint | .aliasIndex | .missingRow => false
  | _ => true

section Lookups

variable {P : Refusal → Prop} {s : Store} {env : Env}

theorem fails_getRow {α : Type} {x : Option α} {void : Bool} (h : P .notFound) : Fails P (getRow x void) := by
  unfold getRow
  split
  · exact fails_error h
  · split
    · exact fails_error h
    · exact fails_ok _

theorem fails_getLiveEntity {id : EntityId} (h : P .notFound) : Fails P (getLiveEntity s id) := by
  unfold getLiveEntity
  split
  · exact fails_error h
  · split
    · exact fails_error h
    · exact fails_ok _

theorem fails_checkEntities {ids : List (Option EntityId)} (h : P .notFound) : Fails P (checkEntities s ids) := by
  induction ids with
  | nil => exact fails_ok _
  | cons first ids ih =>
    cases first with
    | none => exact ih
    | some id => exact (fails_getLiveEntity h).bind fun _ _ => ih

theorem fails_checkNote {id : Option NoteId} (h : P .notFound) : Fails P (checkNote env s id) := by
  cases id with
  | none => exact fails_ok _
  | some id => exact (fails_getRow h).bind fun _ _ => fails_ok _

theorem fails_canonicalFrom {entities : List Entity} (hfound : P .notFound) (hhops : P .hopLimit) (n : Nat) :
    ∀ key, Fails P (canonicalFrom entities n key) := by
  induction n with
  | zero => exact fun _ => fails_error hhops
  | succ n ih =>
    intro key
    unfold canonicalFrom
    split
    · exact fails_error hfound
    · split
      · exact fails_ok _
      · exact ih _

theorem fails_canonical {entities : List Entity} {key : EntityId} (hfound : P .notFound) (hhops : P .hopLimit) :
    Fails P (canonical entities key) := by
  unfold canonical
  split
  · exact fails_canonicalFrom hfound hhops _ _
  · exact fails_error hfound

theorem fails_platformId {pid : String} (h : P .invalidPlatformId) : Fails P (platformId u pid) := by
  unfold platformId
  split
  · exact fails_error h
  · split
    · exact fails_error h
    · exact fails_ok _

theorem fails_holder {pid : String} (hpid : P .invalidPlatformId) (hfound : P .notFound) (hhops : P .hopLimit) :
    Fails P (holderForPlatformId env s pid) := by
  refine (fails_platformId hpid).bind fun norm _ => ?_
  split
  · exact fails_ok _
  · exact (fails_canonical hfound hhops).bind fun _ _ => fails_ok _

theorem fails_resolvedView {access : Access} {norm : Option String} (hfound : P .notFound) (hhops : P .hopLimit) :
    Fails P (resolvedView env access norm s) := by
  refine Fails.bind ?_ fun _ _ => fails_ok _
  exact fails_mapM fun r _ => (fails_canonical hfound hhops).map _

theorem fails_keySources {access : Access} (h : P .assertionsUnverified) : Fails P (keySources env access) := by
  unfold keySources
  split
  · exact fails_ok _
  · exact fails_error h
  · exact fails_ok _

end Lookups

/-- The call fails, if it does, elsewhere than at the index. -/
abbrev Clear {α : Type} (x : Except Refusal α) : Prop := Fails (fun e => e ≠ .aliasIndex) x

section Writes

variable {c : Context} {d : Draft} {s : Store}

theorem clear_insertAlias {row : Alias}
    (h : indexConflict s { row with aliasId := s.nextAlias } = false) : Clear (insertAlias row s) := by
  unfold insertAlias
  rw [h]
  exact fails_ok _

theorem clear_setAliasRetired {row : Alias} {v : Option Rat} (h : v = none → indexConflict s row = false) :
    Clear (setAliasRetired row v s) := by
  unfold setAliasRetired
  split
  · rename_i hconflict
    rw [Bool.and_eq_true, decide_eq_true_eq] at hconflict
    rw [h hconflict.1] at hconflict
    exact absurd hconflict.2 Bool.false_ne_true
  · exact fails_ok _

theorem clear_touchAlias {env : Env} {id : Nat} : Clear (touchAlias env d id) := by
  unfold touchAlias
  split
  · exact fails_ok _
  · split
    · exact fails_error (by decide)
    · exact fails_ok _

theorem clear_projectEntity {id : EntityId} {v : Status × Option EntityId} : Clear (projectEntity id v d) :=
  (fails_getLiveEntity (by decide)).bind fun _ _ => fails_ok _

theorem clear_projectNote {id : NoteId} {v : Option NoteId} : Clear (projectNote c id v d) :=
  Fails.bind (fails_getRow (by decide)) fun _ _ => fails_ok _

theorem clear_projectKey {id : Nat} {v : Stamp} : Clear (projectKey c id v d) := by
  refine Fails.bind (fails_getRow (by decide)) fun row _ => Fails.bind ?_ fun _ _ => fails_ok _
  unfold setKeyRetired
  split
  · exact fails_error (by decide)
  · exact fails_ok _

theorem clear_projectAlias {id : Nat} {v : Stamp}
    (h : ∀ row, ReadableAlias c.env d.store row → row.aliasId = id → stamp c d v = none →
      indexConflict d.store row = false) :
    Clear (projectAlias c id v d) := by
  refine Fails.bind (fails_getRow (by decide)) fun row hrow => ?_
  obtain ⟨hread, hid⟩ := getLiveAlias_ok hrow
  refine (clear_setAliasRetired fun hv => h row hread hid hv).bind fun _ _ => ?_
  exact clear_touchAlias.bind fun _ _ => fails_ok _

theorem clear_retire {id : Nat} : Clear (projectAlias c id .now d) := clear_projectAlias fun _ _ _ hv => by cases hv

theorem clear_newEntity {name : String} {kind : Kind} : Clear (newEntity c name kind d) := by
  refine Fails.bind ?_ fun _ _ => fails_ok _
  unfold insertEntity
  split
  · exact fails_error (by decide)
  · exact fails_ok _

theorem clear_newNote {row : Note} : Clear (newNote c row d) := by
  refine Fails.bind ?_ fun _ _ => fails_ok _
  unfold insertNote
  split
  · exact fails_error (by decide)
  · exact fails_ok _

theorem clear_newKey {row : KeyRow} : Clear (newKey row d) := by
  refine Fails.bind ?_ fun _ _ => fails_ok _
  unfold insertKey
  split
  · exact fails_error (by decide)
  · exact fails_ok _

theorem clear_newAlias {row : Alias} {touched : List (Option EntityId)}
    (h : indexConflict d.store { row with aliasId := d.store.nextAlias } = false) : Clear (newAlias c row touched d) :=
  (clear_insertAlias h).bind fun _ _ => clear_touchAlias

end Writes

end EntityStore
