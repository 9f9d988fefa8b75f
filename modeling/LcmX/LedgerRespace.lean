import LcmX.LedgerPlan
import LcmX.LedgerTables
import Mathlib.Data.Int.Interval

/-!
# Applying a re-spacing

`apply_respace` moves the labels of a lineage through temporary negative ones, so
that no statement meets a label that is still in use.
-/
namespace IngestLedger

open Fallible

/-! ## The statements -/

def minOrdinal : Int := -2 ^ 63

/-- The first loop: each old label is parked under the next smaller temporary one. -/
def park (lineage : String) : List (Int × Int) → Int → BindingTable →
    Except WriteError (BindingTable × Nat × List (Int × Int))
  | [], _, t => .ok (t, 0, [])
  | (old, new) :: rest, temporary, t =>
    if temporary - 1 < minOrdinal then .error (.ledger "temporary ordinal space exhausted")
    else do
      let next ← t.setOrdinal lineage old (temporary - 1)
      let (last, count, staged) ← park lineage rest (temporary - 1) next
      return (last, t.rows.countP (fun r => r.lineage = lineage ∧ r.ordinal = some old) + count,
        (temporary - 1, new) :: staged)

/-- The second loop: the temporary labels become the new ones. -/
def settle (lineage : String) (staged : List (Int × Int)) (t : BindingTable) : Except WriteError BindingTable :=
  staged.foldlM (fun t s => t.setOrdinal lineage s.1 s.2) t

def validMap (occupied : List Int) (mapping : List (Int × Int)) : Prop :=
  (∀ value ∈ mapping.map Prod.snd, 0 < value ∧ value ≤ maxOrdinal) ∧ (mapping.map Prod.snd).Nodup ∧
    ∀ value ∈ mapping.map Prod.snd, value ∈ occupied → value ∈ mapping.map Prod.fst

instance (occupied : List Int) (mapping : List (Int × Int)) : Decidable (validMap occupied mapping) :=
  inferInstanceAs (Decidable (_ ∧ _ ∧ _))

/-- `apply_respace`; `owned` is whether the connection is inside `store.atomic`. -/
def applyRespace (owned : Bool) (lineage : String) (mapping : List (Int × Int)) (t : BindingTable) :
    Except WriteError (BindingTable × Nat) :=
  if ¬ owned then .error (.transaction "ledger write requires store.atomic")
  else if ¬ validMap (t.occupied lineage) mapping then .error (.ledger "invalid re-spacing map")
  else do
    let (parked, count, staged) ← park lineage mapping ((t.occupied lineage).foldl min 0) t
    let settled ← settle lineage staged parked
    return (settled, count)

/-! ## Replacements -/

/-- Replacements one after the other. -/
def replaceAll (moves : List (Int × Int)) (x : Int) : Int := moves.foldl (fun x m => replace m.1 m.2 x) x

variable {moves mapping moved : List (Int × Int)}

theorem replaceAll_of_notMem : ∀ {x : Int}, x ∉ moves.map Prod.fst → replaceAll moves x = x := by
  induction moves with
  | nil => exact fun _ => rfl
  | cons m moves ih =>
    intro x hx
    rw [List.map_cons, List.mem_cons, not_or] at hx
    rw [replaceAll, List.foldl_cons, replace, if_neg hx.1]
    exact ih hx.2

theorem renamed_of_notMem {x : Int} (hx : x ∉ moves.map Prod.fst) : renamed moves x = x := by
  have hnone : moves.find? (fun m => m.1 = x) = none := by
    rw [List.find?_eq_none]
    intro m hm heq
    exact hx (List.mem_map.mpr ⟨m, hm, by simpa using heq⟩)
  rw [renamed, hnone]
  rfl

theorem renamed_cons (a b x : Int) (moves : List (Int × Int)) :
    renamed ((a, b) :: moves) x = if x = a then b else renamed moves x := by
  unfold renamed
  by_cases h : a = x
  · rw [List.find?_cons_of_pos (by simpa using h), if_pos h.symm]
    rfl
  · rw [List.find?_cons_of_neg (by simpa using h), if_neg fun he => h he.symm]

/-- Replacing in turn is renaming, when no result is replaced again. -/
theorem replaceAll_eq_renamed : (∀ m ∈ moves, m.2 ∉ moves.map Prod.fst) →
    ∀ x, replaceAll moves x = renamed moves x := by
  induction moves with
  | nil => exact fun _ _ => rfl
  | cons m moves ih =>
    intro h x
    obtain ⟨a, b⟩ := m
    have hrest : ∀ m ∈ moves, m.2 ∉ moves.map Prod.fst := fun m hm hin =>
      h m (List.mem_cons_of_mem _ hm) (List.mem_cons_of_mem _ hin)
    rw [replaceAll, List.foldl_cons, replace, renamed_cons]
    by_cases hx : x = a
    · rw [if_pos hx, if_pos hx]
      exact replaceAll_of_notMem fun hin => h (a, b) List.mem_cons_self (List.mem_cons_of_mem _ hin)
    · rw [if_neg hx, if_neg hx]
      exact ih hrest x

/-- The labels that the first loop parks under, beside what they stand for. -/
def parking : List (Int × Int) → Int → List (Int × Int × Int)
  | [], _ => []
  | (old, new) :: rest, temporary => (old, temporary - 1, new) :: parking rest (temporary - 1)

def parkMoves (mapping : List (Int × Int)) (temporary : Int) : List (Int × Int) :=
  (parking mapping temporary).map fun p => (p.1, p.2.1)

def settleMoves (mapping : List (Int × Int)) (temporary : Int) : List (Int × Int) :=
  (parking mapping temporary).map fun p => (p.2.1, p.2.2)

/-- Every row is parked below the temporary label. -/
theorem parking_spec (mapping : List (Int × Int)) : ∀ temporary, ∀ p ∈ parking mapping temporary,
    (p.1, p.2.2) ∈ mapping ∧ p.2.1 < temporary := by
  induction mapping with
  | nil =>
    intro temporary p hp
    cases hp
  | cons m mapping ih =>
    intro temporary p hp
    obtain ⟨old, new⟩ := m
    cases List.mem_cons.mp hp with
    | inl heq =>
      subst heq
      exact ⟨List.mem_cons_self, by dsimp only; omega⟩
    | inr hin =>
      obtain ⟨hmem, hlt⟩ := ih (temporary - 1) p hin
      exact ⟨List.mem_cons_of_mem _ hmem, by omega⟩

/-- Parking and settling comes to the map itself. -/
theorem renamed_parked (mapping : List (Int × Int)) : ∀ (temporary x : Int), temporary ≤ x →
    renamed (settleMoves mapping temporary) (renamed (parkMoves mapping temporary) x) = renamed mapping x := by
  induction mapping with
  | nil => exact fun _ _ _ => rfl
  | cons m mapping ih =>
    intro temporary x hx
    obtain ⟨old, new⟩ := m
    have hpark : parkMoves ((old, new) :: mapping) temporary =
        (old, temporary - 1) :: parkMoves mapping (temporary - 1) := rfl
    have hsettle : settleMoves ((old, new) :: mapping) temporary =
        (temporary - 1, new) :: settleMoves mapping (temporary - 1) := rfl
    rw [hpark, hsettle, renamed_cons, renamed_cons, renamed_cons]
    by_cases ho : x = old
    · rw [if_pos ho, if_pos ho, if_pos rfl]
    · rw [if_neg ho, if_neg ho, ih (temporary - 1) x (by omega), if_neg]
      -- What the rest parks lies below, and what it leaves stays above.
      intro heq
      have hcases : renamed (parkMoves mapping (temporary - 1)) x = x ∨
          renamed (parkMoves mapping (temporary - 1)) x < temporary - 1 := by
        unfold renamed
        cases hfind : (parkMoves mapping (temporary - 1)).find? fun m => m.1 = x with
        | none => exact .inl rfl
        | some m =>
          obtain ⟨p, hp, rfl⟩ := List.mem_map.mp (List.mem_of_find?_eq_some hfind)
          exact .inr (parking_spec mapping (temporary - 1) p hp).2
      omega

/-! ## No statement collides -/

variable {lineage : String} {t u : BindingTable} {f : Int → Int}

theorem injOn_replace {S : Set Int} {a b : Int} (hf : Set.InjOn f S) (hfresh : ∀ o ∈ S, f o ≠ b) :
    Set.InjOn (fun o => replace a b (f o)) S := by
  intro x hx y hy heq
  dsimp only [replace] at heq
  by_cases hxa : f x = a
  · by_cases hya : f y = a
    · exact hf hx hy (hxa.trans hya.symm)
    · rw [if_pos hxa, if_neg hya] at heq
      exact absurd heq.symm (hfresh y hy)
  · by_cases hya : f y = a
    · rw [if_neg hxa, if_pos hya] at heq
      exact absurd heq (hfresh x hx)
    · rw [if_neg hxa, if_neg hya] at heq
      exact hf hx hy heq

/-- Parking moves every row to a free label and keeps them apart. -/
theorem park_ok (mapping : List (Int × Int)) : ∀ (temporary : Int) (f : Int → Int) (u : BindingTable),
    u.rows = t.rows.map (relabel lineage f) → Set.InjOn f {o | o ∈ t.occupied lineage} →
    (∀ o ∈ t.occupied lineage, temporary ≤ f o) → minOrdinal + mapping.length ≤ temporary →
    ∃ v count, park lineage mapping temporary u = .ok (v, count, settleMoves mapping temporary) ∧
      v.rows = t.rows.map (relabel lineage fun o => replaceAll (parkMoves mapping temporary) (f o)) ∧
      Set.InjOn (fun o => replaceAll (parkMoves mapping temporary) (f o)) {o | o ∈ t.occupied lineage} := by
  induction mapping with
  | nil =>
    intro temporary f u hu hf _ _
    exact ⟨u, 0, rfl, hu, hf⟩
  | cons m mapping ih =>
    intro temporary f u hu hf hlow hroom
    obtain ⟨old, new⟩ := m
    rw [List.length_cons] at hroom
    push_cast at hroom
    have hinj : Set.InjOn (fun o => replace old (temporary - 1) (f o)) {o | o ∈ t.occupied lineage} := by
      apply injOn_replace hf
      intro o ho heq
      have hle := hlow o ho
      omega
    obtain ⟨next, hnext, hrows⟩ := setOrdinal_relabel hu hinj
    have hlow' : ∀ o ∈ t.occupied lineage, temporary - 1 ≤ replace old (temporary - 1) (f o) := by
      intro o ho
      have hle := hlow o ho
      unfold replace
      split <;> omega
    obtain ⟨v, count, hpark, hv, hinj'⟩ := ih (temporary - 1) _ next hrows hinj hlow' (by omega)
    refine ⟨v, u.rows.countP (fun r => r.lineage = lineage ∧ r.ordinal = some old) + count, ?_, hv, hinj'⟩
    rw [park, if_neg (by omega), hnext, bind_of_ok rfl, hpark]
    rfl

theorem settle_ok (staged : List (Int × Int)) : ∀ (f : Int → Int) (u : BindingTable),
    u.rows = t.rows.map (relabel lineage f) → Set.InjOn f {o | o ∈ t.occupied lineage} → (staged.map Prod.snd).Nodup →
    (∀ o ∈ t.occupied lineage, f o ∉ staged.map Prod.snd) →
    ∃ v, settle lineage staged u = .ok v ∧ v.rows = t.rows.map (relabel lineage fun o => replaceAll staged (f o)) := by
  induction staged with
  | nil =>
    intro f u hu _ _ _
    exact ⟨u, rfl, hu⟩
  | cons s staged ih =>
    intro f u hu hf hnodup hfresh
    obtain ⟨hnew, hnodup⟩ := List.nodup_cons.mp hnodup
    have hinj : Set.InjOn (fun o => replace s.1 s.2 (f o)) {o | o ∈ t.occupied lineage} :=
      injOn_replace hf fun o ho heq => hfresh o ho (heq ▸ List.mem_cons_self)
    obtain ⟨next, hnext, hrows⟩ := setOrdinal_relabel hu hinj
    have hfresh' : ∀ o ∈ t.occupied lineage, replace s.1 s.2 (f o) ∉ staged.map Prod.snd := by
      intro o ho
      unfold replace
      split
      · exact hnew
      · exact fun hin => hfresh o ho (List.mem_cons_of_mem _ hin)
    obtain ⟨v, hv, hvrows⟩ := ih _ next hrows hinj hnodup hfresh'
    refine ⟨v, ?_, hvrows⟩
    rw [settle, List.foldlM_cons, hnext]
    exact hv

/-! ## The whole re-spacing -/

theorem foldl_min_zero {l : List Int} : (∀ o ∈ l, 0 < o) → l.foldl min 0 = 0 := by
  induction l with
  | nil => exact fun _ => rfl
  | cons a l ih =>
    intro h
    have ha := h a List.mem_cons_self
    rw [List.foldl_cons, min_eq_left ha.le]
    exact ih fun o ho => h o (List.mem_cons_of_mem a ho)

theorem map_relabel_congr {f g : Int → Int} (h : ∀ o ∈ t.occupied lineage, f o = g o) :
    t.rows.map (relabel lineage f) = t.rows.map (relabel lineage g) := by
  apply List.map_congr_left
  intro r hr
  by_cases hl : r.lineage = lineage
  · rw [relabel_of_eq hl, relabel_of_eq hl]
    cases ho : r.ordinal with
    | none => rfl
    | some o => rw [Option.map_some, Option.map_some, h o (BindingTable.mem_occupied.mpr ⟨r, hr, hl, ho⟩)]
  · rw [relabel_of_ne hl, relabel_of_ne hl]

theorem map_relabel_id (t : BindingTable) (lineage : String) : t.rows.map (relabel lineage fun o => o) = t.rows := by
  conv_rhs => rw [← List.map_id t.rows]
  apply List.map_congr_left
  intro r _
  by_cases hl : r.lineage = lineage
  · rw [relabel_of_eq hl]
    simp
  · rw [relabel_of_ne hl, id]

/-- The new labels are positive, so they are none of the temporary ones. -/
theorem settleMoves_fresh (hpositive : ∀ m ∈ mapping, 0 < m.2) :
    ∀ m ∈ settleMoves mapping 0, m.2 ∉ (settleMoves mapping 0).map Prod.fst := by
  intro m hm hin
  obtain ⟨p, hp, rfl⟩ := List.mem_map.mp hm
  obtain ⟨m', hm', heq⟩ := List.mem_map.mp hin
  obtain ⟨q, hq, rfl⟩ := List.mem_map.mp hm'
  have hpos := hpositive _ (parking_spec mapping 0 p hp).1
  have hneg := (parking_spec mapping 0 q hq).2
  dsimp only at heq hpos
  omega

theorem parkMoves_fresh (hpositive : ∀ m ∈ mapping, 0 < m.1) :
    ∀ m ∈ parkMoves mapping 0, m.2 ∉ (parkMoves mapping 0).map Prod.fst := by
  intro m hm hin
  obtain ⟨p, hp, rfl⟩ := List.mem_map.mp hm
  obtain ⟨m', hm', heq⟩ := List.mem_map.mp hin
  obtain ⟨q, hq, rfl⟩ := List.mem_map.mp hm'
  have hpos := hpositive _ (parking_spec mapping 0 q hq).1
  have hneg := (parking_spec mapping 0 p hp).2
  dsimp only at heq hpos
  omega

theorem settleMoves_snd (mapping : List (Int × Int)) :
    ∀ temporary, (settleMoves mapping temporary).map Prod.snd = mapping.map Prod.snd := by
  induction mapping with
  | nil => exact fun _ => rfl
  | cons m mapping ih => exact fun temporary => congrArg (m.2 :: ·) (ih (temporary - 1))

theorem parkMoves_fst (mapping : List (Int × Int)) :
    ∀ temporary, (parkMoves mapping temporary).map Prod.fst = mapping.map Prod.fst := by
  induction mapping with
  | nil => exact fun _ => rfl
  | cons m mapping ih => exact fun temporary => congrArg (m.1 :: ·) (ih (temporary - 1))

/-- A label is parked below zero or left where it is. -/
theorem parked_cases (mapping : List (Int × Int)) (x : Int) :
    renamed (parkMoves mapping 0) x < 0 ∨ (renamed (parkMoves mapping 0) x = x ∧ x ∉ mapping.map Prod.fst) := by
  by_cases hx : x ∈ mapping.map Prod.fst
  · left
    rw [← parkMoves_fst mapping 0] at hx
    unfold renamed
    cases hfind : (parkMoves mapping 0).find? fun m => m.1 = x with
    | none =>
      obtain ⟨m, hm, heq⟩ := List.mem_map.mp hx
      rw [List.find?_eq_none] at hfind
      exact absurd (by simpa using heq) (hfind m hm)
    | some m =>
      obtain ⟨p, hp, rfl⟩ := List.mem_map.mp (List.mem_of_find?_eq_some hfind)
      exact (parking_spec mapping 0 p hp).2
  · right
    refine ⟨renamed_of_notMem ?_, hx⟩
    rwa [parkMoves_fst]

/-- A valid map of positive labels is applied as it is, without a collision. -/
theorem applyRespace_ok (t : BindingTable) (lineage : String)
    (hoccupied : ∀ o ∈ t.occupied lineage, 0 < o) (hkeys : ∀ m ∈ mapping, 0 < m.1)
    (hvalid : validMap (t.occupied lineage) mapping) (hroom : mapping.length ≤ 2 ^ 63) :
    ∃ v count, applyRespace true lineage mapping t = .ok (v, count) ∧
      v.rows = t.rows.map (relabel lineage (renamed mapping)) := by
  have hnews : ∀ m ∈ mapping, 0 < m.2 := fun m hm => (hvalid.1 m.2 (List.mem_map_of_mem hm)).1
  have hparks := replaceAll_eq_renamed (parkMoves_fresh hkeys)
  have hsettles := replaceAll_eq_renamed (settleMoves_fresh hnews)
  obtain ⟨parked, count, hpark, hrows, hinj⟩ := park_ok mapping 0 (fun o => o) t (map_relabel_id t lineage).symm
    (fun _ _ _ _ h => h) (fun o ho => (hoccupied o ho).le) (by unfold minOrdinal; omega)
  have hfresh : ∀ o ∈ t.occupied lineage,
      replaceAll (parkMoves mapping 0) o ∉ (settleMoves mapping 0).map Prod.snd := by
    intro o ho hin
    rw [settleMoves_snd, hparks] at hin
    have hpos := (hvalid.1 _ hin).1
    cases parked_cases mapping o with
    | inl hneg => omega
    | inr hstays =>
      rw [hstays.1] at hin
      exact hstays.2 (hvalid.2.2 o hin ho)
  obtain ⟨v, hsettle, hv⟩ := settle_ok (settleMoves mapping 0) _ parked hrows hinj
    (by rw [settleMoves_snd]; exact hvalid.2.1) hfresh
  refine ⟨v, count, ?_, ?_⟩
  · unfold applyRespace
    rw [if_neg (by simp), if_neg (not_not.mpr hvalid), foldl_min_zero hoccupied, hpark, bind_of_ok rfl]
    dsimp only
    rw [hsettle]
    rfl
  · rw [hv]
    apply map_relabel_congr
    intro o ho
    rw [hsettles, hparks, renamed_parked mapping 0 o (hoccupied o ho).le]

/-! ## The map of a plan -/

theorem renamed_of_mem (hkeys : (moved.map Prod.fst).Nodup) {m : Int × Int} (hm : m ∈ moved) :
    renamed moved m.1 = m.2 := by
  induction moved with
  | nil => cases hm
  | cons x moved ih =>
    obtain ⟨a, b⟩ := x
    obtain ⟨hfresh, hkeys⟩ := List.nodup_cons.mp hkeys
    rw [renamed_cons]
    cases List.mem_cons.mp hm with
    | inl heq =>
      subst heq
      rw [if_pos rfl]
    | inr hin =>
      have hne : m.1 ≠ a := fun heq => hfresh (List.mem_map.mpr ⟨m, hin, heq⟩)
      rw [if_neg hne]
      exact ih hkeys hin

theorem PlanSpec.injective {existing : List Int} {placements : List Placement} {labels : List Int}
    (h : PlanSpec existing placements labels moved) {v w : Int} (hv : v ∈ existing) (hw : w ∈ existing)
    (heq : renamed moved v = renamed moved w) : v = w := by
  obtain hlt | hsame | hgt := lt_trichotomy v w
  · have hless := h.order v hv w hw hlt
    omega
  · exact hsame
  · have hless := h.order w hw v hv hgt
    omega

theorem PlanSpec.validMap {existing : List Int} {placements : List Placement} {labels : List Int}
    (h : PlanSpec existing placements labels moved) {occupied : List Int}
    (hoccupied : ∀ o, o ∈ occupied ↔ o ∈ existing) :
    validMap occupied moved := by
  have himage : ∀ m ∈ moved, renamed moved m.1 = m.2 := fun m hm => renamed_of_mem h.keys hm
  refine ⟨?_, ?_, ?_⟩
  · intro value hvalue
    obtain ⟨m, hm, rfl⟩ := List.mem_map.mp hvalue
    rw [← himage m hm]
    exact h.old_range m.1 (h.changed m hm).1
  · apply List.Nodup.map_on _ (List.Nodup.of_map Prod.fst h.keys)
    intro m hm m' hm' heq
    rw [← himage m hm, ← himage m' hm'] at heq
    have hkey := h.injective (h.changed m hm).1 (h.changed m' hm').1 heq
    refine Prod.ext hkey ?_
    rw [← himage m hm, ← himage m' hm', hkey]
  · intro value hvalue hin
    obtain ⟨m, hm, rfl⟩ := List.mem_map.mp hvalue
    by_contra hnot
    -- An unchanged label keeps its place, so no other label moves there.
    have hsame : renamed moved m.1 = renamed moved m.2 := by rw [himage m hm, renamed_of_notMem hnot]
    exact (h.changed m hm).2 (h.injective (h.changed m hm).1 ((hoccupied m.2).mp hin) hsame)

theorem length_le_of_range {l : List Int} (hnodup : l.Nodup) {n : Nat}
    (hrange : ∀ v ∈ l, 0 < v ∧ v ≤ n) : l.length ≤ n := by
  have hsub : l.toFinset ⊆ Finset.Icc 1 (n : Int) := by
    intro v hv
    have hv := hrange v (List.mem_toFinset.mp hv)
    exact Finset.mem_Icc.mpr ⟨by omega, by omega⟩
  have hcard := Finset.card_le_card hsub
  rw [List.toFinset_card_of_nodup hnodup, Int.card_Icc] at hcard
  omega

/-- A plan on accepted placements is exhausted or keeps its promises, and its map applies to a
lineage with these labels. -/
theorem planOrdinals_applies (existing : List Int) (placements : List Placement)
    (hrange : ∀ v ∈ existing, 0 < v ∧ v ≤ maxOrdinal) (haccepted : Accepted existing placements) :
    planOrdinals existing placements = .error exhausted ∨
      ∃ (labels : List Int) (moved : List (Int × Int)),
      planOrdinals existing placements = .ok (labels.map some, moved) ∧
        PlanSpec existing placements labels moved ∧
        ∀ (t : BindingTable) (lineage : String), (∀ o, o ∈ t.occupied lineage ↔ o ∈ existing) →
          ∃ v count, applyRespace true lineage moved t = .ok (v, count) ∧
          v.rows = t.rows.map (relabel lineage (renamed moved)) := by
  cases planOrdinals_spec hrange haccepted with
  | inl hexhausted => exact .inl hexhausted
  | inr hplan =>
    obtain ⟨labels, moved, hplan, hspec⟩ := hplan
    refine .inr ⟨labels, moved, hplan, hspec, fun t lineage hoccupied => ?_⟩
    have hkeys : ∀ m ∈ moved, 0 < m.1 ∧ m.1 ≤ (2 ^ 63 - 1 : Nat) := fun m hm => hrange m.1 (hspec.changed m hm).1
    apply applyRespace_ok t lineage
    · exact fun o ho => (hrange o ((hoccupied o).mp ho)).1
    · exact fun m hm => (hkeys m hm).1
    · exact hspec.validMap hoccupied
    · have hlen := length_le_of_range hspec.keys fun v hv => by
        obtain ⟨m, hm, rfl⟩ := List.mem_map.mp hv
        exact hkeys m hm
      rw [List.length_map] at hlen
      omega

theorem planOrdinals_applies_neighbours :
    planOrdinals [1, 2] [⟨some 1, some 2, none⟩] = .ok ([1048577].map some, [(2, 2097153)]) ∧
      PlanSpec [1, 2] [⟨some 1, some 2, none⟩] [1048577] [(2, 2097153)] := by
  have haccepted : Accepted [1, 2] [⟨some 1, some 2, none⟩] := by
    unfold Accepted sortedLabels
    rw [List.mergeSort_of_pairwise (by decide)]
    exact ⟨⟨1, 2, 1, [1]⟩, by rfl⟩
  obtain hexhausted | ⟨labels, moved, hplan, hspec, -⟩ :=
    planOrdinals_applies [1, 2] [⟨some 1, some 2, none⟩] (by decide) haccepted
  · rw [plan_between] at hexhausted
    cases hexhausted
  · rw [plan_between, Except.ok.injEq, Prod.mk.injEq] at hplan
    obtain ⟨hlabels, rfl⟩ := hplan
    obtain rfl : [1048577] = labels := List.map_injective_iff.mpr (Option.some_injective Int) hlabels
    exact ⟨plan_between, hspec⟩

end IngestLedger
