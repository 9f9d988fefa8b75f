import LcmX.EntityFixpoint
import LcmX.EntityRestore

/-!
# A rebuild after any history

The history of a scope is a run of calls, undos and rebuilds. The rows are then
exact, and the next rebuild is silent unless an override of an owner has come to
hide a derivation from sources of another time.
-/
namespace EntityStore

open ChangeLog Fallible Rebuilding

variable {b : Basis} {env : Env} {now again : Nat → Rat} {l : Lookups} {s s' : Store}

/-! ## Histories -/

/-- Calls, undos among them, and rebuilds from an empty scope. -/
inductive KeyReachable : Store → Prop
  | empty (nextAlias nextKey nextEvent : Nat) : KeyReachable (emptyScope nextAlias nextKey nextEvent)
  | call {s : Store} (h : KeyReachable s) (c : Context) (op : Op) : KeyReachable (step c s op).1
  | rebuild {s s' : Store} (h : KeyReachable s) (env : Env) (now : Nat → Rat) (l : Lookups) (n : Nat)
      (hrun : rebuildEntityKeys env now l s = .ok (s', n)) : KeyReachable s'

theorem rebuild_parts {n : Nat} (h : rebuildEntityKeys env now l s = .ok (s', n)) :
    ∃ b, basis env l s = .ok b ∧ rebuildWith b now s = .ok (s', n) := by
  rw [rebuildEntityKeys, bind_ok] at h
  exact h

theorem rebuilt_of (hinv : KeyInv s) {n : Nat} (h : rebuildWith b now s = .ok (s', n)) : Rebuilt b s s' := by
  obtain ⟨s'', n', hrun, hrebuilt⟩ := rebuildWith_total (b := b) now hinv.tables hinv.upToDate
  rw [h] at hrun
  cases hrun
  exact hrebuilt

theorem Rebuilt.keyInv (h : Rebuilt b s s') (hinv : KeyInv s) : KeyInv s' := by
  refine ⟨h.tables, h.upToDate, fun e he hop p hp => ?_⟩
  rw [h.store] at he
  exact (hinv.logged e he hop p hp).grow h.grows

theorem KeyReachable.invariant (h : KeyReachable s) : Reachable s ∧ KeyInv s := by
  induction h with
  | empty a k e => exact ⟨.empty a k e, keyInv_empty a k e⟩
  | call h c op ih => exact ⟨ih.1.call c op, ih.2.call ih.1 c op⟩
  | rebuild h env now l n hrun ih =>
    obtain ⟨b, -, hwith⟩ := rebuild_parts hrun
    have hrebuilt := rebuilt_of ih.2 hwith
    refine ⟨?_, hrebuilt.keyInv ih.2⟩
    rw [hrebuilt.store]
    exact ih.1.rebuild _ _

/-! ## What a rebuild reads -/

/-- A rebuild does not read the keys of the view. -/
def Basis.withKeys (b : Basis) (keys : List ViewKey) : Basis := { b with view := { b.view with keys := keys } }

theorem rebuildWith_keys (b : Basis) (keys : List ViewKey) : rebuildWith (b.withKeys keys) = rebuildWith b := rfl

theorem overrides_rebuilt (h : Rebuilt b s s') : overrides s' = overrides s := by
  rw [h.store]
  rfl

theorem basis_rebuilt (hb : basis env l s = .ok b) (h : Rebuilt b s s') :
    ∃ keys, basis env l s' = .ok (b.withKeys keys) := by
  rw [basis, bind_ok] at hb
  obtain ⟨sources, hsources, hb⟩ := hb
  rw [bind_ok] at hb
  obtain ⟨view, hview, hb⟩ := hb
  cases hb
  rw [resolvedView, bind_ok] at hview
  obtain ⟨canon, hcanon, hview⟩ := hview
  cases hview
  refine ⟨(viewOf env trusted s' (liveEntities s) (visibleAliases env trusted s)
    (visibleNotes env trusted s) canon).keys, ?_⟩
  rw [h.store]
  unfold basis resolvedView
  rw [bind_of_ok hsources]
  change (canonicalMap (liveEntities s) >>= _) >>= _ = _
  rw [hcanon]
  rfl

/-- The reads of a rebuild go through once the assertions are verified. -/
theorem basis_total (hs : Reachable s) (l : Lookups) (hassertions : env.assertions ≠ .unverified) :
    ∃ b, basis env l s = .ok b := by
  obtain ⟨canon, hcanon⟩ := canonicalMap_total (mergeInv_reachable hs)
  have hsources : ∃ sources, keySources env trusted = .ok sources := by
    unfold keySources
    split
    · exact ⟨_, rfl⟩
    · rename_i h
      exact absurd h hassertions
    · exact ⟨_, rfl⟩
  obtain ⟨sources, hsources⟩ := hsources
  rw [basis, bind_of_ok hsources, resolvedView, bind_of_ok hcanon]
  exact ⟨_, rfl⟩

/-! ## A run that is told too late -/

/-- The scope after a rebuild. -/
def rebuilt (env : Env) (l : Lookups) (s : Store) : Store :=
  match rebuildEntityKeys env (fun n => n) l s with
  | .ok (s', _) => s'
  | .error _ => s

theorem KeyReachable.rebuilt {s : Store} (h : KeyReachable s) (env : Env) (l : Lookups) :
    KeyReachable (rebuilt env l s) := by
  unfold EntityStore.rebuilt
  split
  · rename_i s' n hrun
    exact h.rebuild env _ l n hrun
  · exact h

theorem KeyReachable.run {s : Store} (h : KeyReachable s) (calls : List (Context × Op)) :
    KeyReachable (run s calls) := by
  induction calls generalizing s with
  | nil => exact h
  | cons call calls ih => exact ih (h.call call.1 call.2)

/-- Two messages name the sister of their sender. -/
def sisterEnv : Env where
  unicode := plainUnicode
  messages := [{ storeId := 10 }, { storeId := 11 }]
  assertions := .rows [("person:sister", 10), ("person:sister", 11)]

/-- Entity 1 is the sender of these messages. -/
def sentBy (ids : List Int) : Lookups where
  senderLookup := some (fun id => if id ∈ ids then some (1, true, true) else none)

def sisterContext (n : Nat) : Context := { plainContext n with env := sisterEnv }

def sisterPhrase : AliasOptions := { aliasKind := .relationPhrase, ownerEntityId := some 1 }

/-- An owner's key is derived from the first message. -/
def sisterDerived : Store :=
  rebuilt sisterEnv (sentBy [10]) (run (emptyScope 1 1 1) [(sisterContext 1, .createEntity "Owner" .person),
    (sisterContext 2, .createEntity "Sister" .person), (sisterContext 3, .createEntity "Chosen" .person),
    (sisterContext 4, .createEntity "Other" .person), (sisterContext 5, .addAlias 2 "my sister" sisterPhrase)])

/-- The key is overridden, its phrase is made ambiguous, and a rebuild without senders retires the override. -/
def sisterUnsent : Store :=
  rebuilt sisterEnv {} (run sisterDerived [(sisterContext 6, .overrideKey "person:sister" 3 none (some 1)),
    (sisterContext 7, .addAlias 4 "my sister" sisterPhrase)])

theorem sisterUnsent_reachable : KeyReachable sisterUnsent := by
  unfold sisterUnsent sisterDerived
  exact ((((KeyReachable.empty 1 1 1).run _).rebuilt _ _).run _).rebuilt _ _

/-! ## The fixpoint -/

/-- After a rebuild the rows are exact. The next one writes nothing just when no
override of an owner has come to hide a stale derivation. -/
theorem rebuild_fixpoint (h : KeyReachable s) (hassertions : env.assertions ≠ .unverified)
    (now again : Nat → Rat) (l : Lookups) :
    ∃ b s' n t m, basis env l s = .ok b ∧ rebuildEntityKeys env now l s = .ok (s', n) ∧
      rebuildEntityKeys env again l s' = .ok (t, m) ∧
      Exact (b.wanted (overrides s)) s' ∧ (m = 0 → t = s') ∧
      (m = 0 ↔ ∀ subject owner, Overridden b (overrides s) subject owner → ¬ Stale b s subject owner) := by
  obtain ⟨hs, hinv⟩ := h.invariant
  obtain ⟨b, hb⟩ := basis_total hs l hassertions
  obtain ⟨s', n, hrun, hrebuilt⟩ := rebuildWith_total (b := b) now hinv.tables hinv.upToDate
  obtain ⟨keys, hb'⟩ := basis_rebuilt hb hrebuilt
  have hover := overrides_rebuilt hrebuilt
  have hexact := hrebuilt.exact
  rw [← hover] at hexact
  obtain ⟨t, m, hagain, hzero, hsame⟩ := rebuildWith_again (b := b) again hrebuilt.tables hrebuilt.upToDate hexact
  refine ⟨b, s', n, t, m, hb, ?_, ?_, hrebuilt.exact, hsame, ?_⟩
  · rw [rebuildEntityKeys, bind_of_ok hb, hrun]
  · rw [rebuildEntityKeys, bind_of_ok hb', rebuildWith_keys, hagain]
  · rw [hzero, hover]
    constructor
    · exact fun htold subject owner hasked => (hrebuilt.told subject owner hasked).mp (htold subject owner hasked)
    · exact fun hnot subject owner hasked => (hrebuilt.told subject owner hasked).mpr (hnot subject owner hasked)

theorem rebuild_fixpoint_unsent : ∃ b s' n t m, basis sisterEnv (sentBy [10, 11]) sisterUnsent = .ok b ∧
    rebuildEntityKeys sisterEnv (fun n => n) (sentBy [10, 11]) sisterUnsent = .ok (s', n) ∧
    rebuildEntityKeys sisterEnv (fun n => n) (sentBy [10, 11]) s' = .ok (t, m) ∧
    Exact (b.wanted (overrides sisterUnsent)) s' ∧ (m = 0 → t = s') ∧
    (m = 0 ↔ ∀ subject owner, Overridden b (overrides sisterUnsent) subject owner →
      ¬ Stale b sisterUnsent subject owner) :=
  rebuild_fixpoint sisterUnsent_reachable (by simp [sisterEnv]) _ _ _

/-- The first rebuild brings the override back and shadows nothing, the second
one shadows the derivation that had become stale. -/
theorem rebuild_writes_again : KeyReachable sisterUnsent ∧
    ((rebuildEntityKeys sisterEnv (fun n => n) (sentBy [10, 11]) sisterUnsent).toOption.map Prod.snd = some 1) ∧
    ((rebuildEntityKeys sisterEnv (fun n => n) (sentBy [10, 11])
    (rebuilt sisterEnv (sentBy [10, 11]) sisterUnsent)).toOption.map
      Prod.snd = some 4) :=
  ⟨sisterUnsent_reachable, by decide +kernel, by decide +kernel⟩

end EntityStore
