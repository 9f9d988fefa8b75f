import Mathlib.Data.List.Nodup

/-!
# Tables with a primary key

Rows under distinct keys, and the single statements that keep them so: an update
of the row under one key, an insert that yields to a conflict, and a delete.
-/

structure KeyedTable (κ ρ : Type) where
  rows : List (κ × ρ)
  unique : (rows.map Prod.fst).Nodup

namespace KeyedTable

variable {κ ρ : Type} [DecidableEq κ]

def empty : KeyedTable κ ρ := ⟨[], List.nodup_nil⟩

def get (t : KeyedTable κ ρ) (k : κ) : Option ρ := (t.rows.find? fun p => p.1 = k).map Prod.snd

def modify (t : KeyedTable κ ρ) (k : κ) (f : ρ → ρ) : KeyedTable κ ρ where
  rows := t.rows.map fun p => if p.1 = k then (p.1, f p.2) else p
  unique := by
    have hkeys : (t.rows.map fun p => if p.1 = k then (p.1, f p.2) else p).map Prod.fst = t.rows.map Prod.fst := by
      rw [List.map_map]
      apply List.map_congr_left
      intro p _
      by_cases h : p.1 = k <;> simp [h]
    rw [hkeys]
    exact t.unique

/-- `UPDATE .. WHERE key = k AND guard`. -/
def updateWhere (t : KeyedTable κ ρ) (k : κ) (guard : ρ → Bool) (f : ρ → ρ) : KeyedTable κ ρ :=
  t.modify k fun r => if guard r then f r else r

/-- `UPDATE .. WHERE guard`, over all rows. -/
def updateAll (t : KeyedTable κ ρ) (guard : κ → ρ → Bool) (f : ρ → ρ) : KeyedTable κ ρ where
  rows := t.rows.map fun p => if guard p.1 p.2 then (p.1, f p.2) else p
  unique := by
    have hkeys : (t.rows.map fun p => if guard p.1 p.2 then (p.1, f p.2) else p).map Prod.fst =
        t.rows.map Prod.fst := by
      rw [List.map_map]
      apply List.map_congr_left
      intro p _
      by_cases h : guard p.1 p.2 <;> simp [h]
    rw [hkeys]
    exact t.unique

/-- Whether that update finds a row. -/
def matches? (t : KeyedTable κ ρ) (k : κ) (guard : ρ → Bool) : Bool := (t.get k).any guard

/-- Insert unless the key is there already. -/
def insert (t : KeyedTable κ ρ) (k : κ) (r : ρ) : KeyedTable κ ρ :=
  if h : k ∈ t.rows.map Prod.fst then t
  else
    { rows := t.rows ++ [(k, r)]
      unique := by
        rw [List.map_append, List.map_singleton]
        exact t.unique.append (List.nodup_singleton k) (by simpa using h) }

/-- Put a row under the key, in the place of the one that is there. -/
def assign (t : KeyedTable κ ρ) (k : κ) (r : ρ) : KeyedTable κ ρ := (t.insert k r).modify k fun _ => r

/-- The row under the key goes behind all others. -/
def moveToEnd (t : KeyedTable κ ρ) (k : κ) : KeyedTable κ ρ where
  rows := (t.rows.filter fun p => p.1 ≠ k) ++ t.rows.filter fun p => p.1 = k
  unique := by
    have hperm : ((t.rows.filter fun p => p.1 ≠ k) ++ t.rows.filter fun p => p.1 = k).Perm t.rows := by
      refine List.perm_append_comm.trans ?_
      simpa using List.filter_append_perm (fun p : κ × ρ => decide (p.1 = k)) t.rows
    exact (hperm.map Prod.fst).nodup_iff.mpr t.unique

def delete (t : KeyedTable κ ρ) (gone : κ → Bool) : KeyedTable κ ρ where
  rows := t.rows.filter fun p => !gone p.1
  unique := t.unique.sublist (List.filter_sublist.map Prod.fst)

variable {t : KeyedTable κ ρ} {k : κ}

theorem get_eq_some {r : ρ} : t.get k = some r ↔ (k, r) ∈ t.rows := by
  obtain ⟨rows, hunique⟩ := t
  unfold get
  simp only
  induction rows with
  | nil => simp
  | cons p rows ih =>
    obtain ⟨k', r'⟩ := p
    rw [List.map_cons, List.nodup_cons] at hunique
    by_cases h : k' = k
    · subst h
      have hnot : (k', r) ∉ rows := fun hin => hunique.1 (List.mem_map.mpr ⟨_, hin, rfl⟩)
      simp only [List.find?_cons, decide_true, Option.map_some, Option.some.injEq, List.mem_cons, Prod.mk.injEq,
        true_and, hnot, or_false]
      exact eq_comm
    · have hne : ¬ k = k' := fun he => h he.symm
      simp only [List.find?_cons, h, decide_false, List.mem_cons, Prod.mk.injEq, hne, false_and, false_or]
      exact ih hunique.2

theorem get_eq_none : t.get k = none ↔ k ∉ t.rows.map Prod.fst := by
  constructor
  · intro hnone hin
    obtain ⟨p, hp, rfl⟩ := List.mem_map.mp hin
    rw [get_eq_some.mpr (show (p.1, p.2) ∈ t.rows from hp)] at hnone
    cases hnone
  · intro hnot
    cases hget : t.get k with
    | none => rfl
    | some r => exact absurd (List.mem_map.mpr ⟨_, get_eq_some.mp hget, rfl⟩) hnot

@[simp] theorem get_empty (k : κ) : (empty : KeyedTable κ ρ).get k = none := rfl

theorem get_modify (t : KeyedTable κ ρ) (k k' : κ) (f : ρ → ρ) :
    (t.modify k f).get k' = if k' = k then (t.get k).map f else t.get k' := by
  have hfind : ∀ rows : List (κ × ρ),
      ((rows.map fun p => if p.1 = k then (p.1, f p.2) else p).find? fun p => p.1 = k').map Prod.snd =
        if k' = k then ((rows.find? fun p => p.1 = k).map Prod.snd).map f
        else (rows.find? fun p => p.1 = k').map Prod.snd := by
    intro rows
    induction rows with
    | nil => simp
    | cons p rows ih =>
      obtain ⟨a, r⟩ := p
      by_cases ha : a = k
      · subst ha
        by_cases hk : k' = a
        · subst hk
          simp
        · have hne : ¬ a = k' := fun he => hk he.symm
          simp only [List.map_cons, if_true, List.find?_cons, hne, decide_false, if_neg hk] at ih ⊢
          exact ih
      · by_cases hk : a = k'
        · subst hk
          simp [ha]
        · simp only [List.map_cons, List.find?_cons, hk, ha, decide_false, if_false]
          exact ih
  exact hfind t.rows

@[simp] theorem get_modify_self (t : KeyedTable κ ρ) (k : κ) (f : ρ → ρ) : (t.modify k f).get k = (t.get k).map f := by
  rw [get_modify, if_pos rfl]

@[simp] theorem get_modify_of_ne (t : KeyedTable κ ρ) {k' : κ} (f : ρ → ρ) (h : k' ≠ k) :
    (t.modify k f).get k' = t.get k' := by
  rw [get_modify, if_neg h]

theorem get_updateWhere (t : KeyedTable κ ρ) (k k' : κ) (guard : ρ → Bool) (f : ρ → ρ) :
    (t.updateWhere k guard f).get k' =
      if k' = k then (t.get k).map (fun r => if guard r then f r else r) else t.get k' :=
  get_modify t k k' _

theorem get_updateAll (t : KeyedTable κ ρ) (guard : κ → ρ → Bool) (f : ρ → ρ) (k : κ) :
    (t.updateAll guard f).get k = (t.get k).map fun r => if guard k r then f r else r := by
  cases hget : t.get k with
  | none =>
    rw [get_eq_none] at hget
    rw [Option.map_none, get_eq_none]
    intro hin
    obtain ⟨p, hp, hk⟩ := List.mem_map.mp hin
    obtain ⟨q, hq, rfl⟩ := List.mem_map.mp hp
    refine hget (List.mem_map.mpr ⟨q, hq, ?_⟩)
    split at hk <;> exact hk
  | some r =>
    rw [get_eq_some] at hget
    rw [Option.map_some, get_eq_some]
    refine List.mem_map.mpr ⟨(k, r), hget, ?_⟩
    by_cases h : guard k r <;> simp [h]

/-- An update that finds no row changes nothing. -/
theorem updateWhere_of_not_matches {guard : ρ → Bool} {f : ρ → ρ}
    (h : t.matches? k guard = false) : t.updateWhere k guard f = t := by
  have hrows : (t.rows.map fun p => if p.1 = k then (p.1, if guard p.2 then f p.2 else p.2) else p) = t.rows := by
    conv_rhs => rw [← List.map_id t.rows]
    apply List.map_congr_left
    intro p hp
    by_cases hk : p.1 = k
    · have hguard : guard p.2 = false := by
        have hget := get_eq_some.mpr (show (p.1, p.2) ∈ t.rows from hp)
        rw [hk] at hget
        simpa [matches?, hget] using h
      simp [hguard]
    · simp [hk]
  obtain ⟨rows, hunique⟩ := t
  simpa [updateWhere, modify] using hrows

theorem modify_congr {f g : ρ → ρ} (h : ∀ r, t.get k = some r → f r = g r) :
    t.modify k f = t.modify k g := by
  have hrows : (t.rows.map fun p => if p.1 = k then (p.1, f p.2) else p) =
      t.rows.map fun p => if p.1 = k then (p.1, g p.2) else p := by
    apply List.map_congr_left
    intro p hp
    by_cases hk : p.1 = k
    · have hfg := h p.2 (hk ▸ get_eq_some.mpr (show (p.1, p.2) ∈ t.rows from hp))
      simp [hfg]
    · simp [hk]
  obtain ⟨rows, hunique⟩ := t
  simpa [modify] using hrows

theorem insert_of_some {r : ρ} (h : t.get k ≠ none) : t.insert k r = t := by
  unfold insert
  rw [dif_pos]
  by_contra hnot
  exact h (get_eq_none.mpr hnot)

theorem get_insert (t : KeyedTable κ ρ) (k k' : κ) (r : ρ) :
    (t.insert k r).get k' = if k' = k ∧ t.get k = none then some r else t.get k' := by
  unfold insert
  split
  · next hin =>
    have hsome : t.get k ≠ none := fun h => get_eq_none.mp h hin
    rw [if_neg fun h => hsome h.2]
  · next hnot =>
    have hnone : t.get k = none := get_eq_none.mpr hnot
    by_cases hk : k' = k
    · subst hk
      rw [if_pos ⟨rfl, hnone⟩]
      exact get_eq_some.mpr (List.mem_append_right _ (List.mem_singleton.mpr rfl))
    · rw [if_neg fun h => hk h.1]
      have hne : ¬ k = k' := fun he => hk he.symm
      simp [get, List.find?_append, hne]

@[simp] theorem get_assign (t : KeyedTable κ ρ) (k k' : κ) (r : ρ) :
    (t.assign k r).get k' = if k' = k then some r else t.get k' := by
  rw [assign, get_modify, get_insert, get_insert]
  by_cases hk : k' = k
  · rw [if_pos hk, if_pos hk]
    cases hget : t.get k with
    | none => simp
    | some r' => simp
  · rw [if_neg hk, if_neg hk, if_neg fun h => hk h.1]

@[simp] theorem get_moveToEnd (t : KeyedTable κ ρ) (k k' : κ) : (t.moveToEnd k).get k' = t.get k' := by
  have hmem : ∀ p, p ∈ (t.moveToEnd k).rows ↔ p ∈ t.rows := by
    intro p
    rw [moveToEnd, List.mem_append, List.mem_filter, List.mem_filter, ← and_or_left]
    by_cases h : p.1 = k <;> simp [h]
  cases hget : t.get k' with
  | none =>
    rw [get_eq_none] at hget ⊢
    intro hin
    obtain ⟨p, hp, he⟩ := List.mem_map.mp hin
    exact hget (List.mem_map.mpr ⟨p, (hmem p).mp hp, he⟩)
  | some r => exact get_eq_some.mpr ((hmem _).mpr (get_eq_some.mp hget))

theorem get_delete (t : KeyedTable κ ρ) (gone : κ → Bool) (k : κ) :
    (t.delete gone).get k = if gone k then none else t.get k := by
  by_cases h : gone k = true
  · rw [if_pos h, get_eq_none]
    intro hin
    obtain ⟨p, hp, rfl⟩ := List.mem_map.mp hin
    simpa [h] using (List.mem_filter.mp hp).2
  · rw [if_neg h]
    cases hget : t.get k with
    | none =>
      rw [get_eq_none] at hget ⊢
      exact fun hin => hget ((List.filter_sublist.map Prod.fst).subset hin)
    | some r =>
      rw [get_eq_some] at hget ⊢
      exact List.mem_filter.mpr ⟨hget, by simpa using h⟩

end KeyedTable

/-! ## Rows that hold their key -/

structure KeyedRows (ρ κ : Type) (key : ρ → κ) where
  rows : List ρ
  unique : (rows.map key).Nodup

namespace KeyedRows

variable {ρ κ : Type} {key : ρ → κ} [DecidableEq κ]

/-- Change rows; `none` when two of them then have one key. -/
def update (t : KeyedRows ρ κ key) (change : ρ → ρ) : Option (KeyedRows ρ κ key) :=
  if h : ((t.rows.map change).map key).Nodup then some ⟨t.rows.map change, h⟩ else none

def delete (t : KeyedRows ρ κ key) (gone : ρ → Bool) : KeyedRows ρ κ key where
  rows := t.rows.filter fun r => !gone r
  unique := t.unique.sublist (List.filter_sublist.map key)

theorem rows_update {t t' : KeyedRows ρ κ key} {change : ρ → ρ} (h : t.update change = some t') :
    t'.rows = t.rows.map change := by
  unfold update at h
  split at h
  · cases h
    rfl
  · cases h

end KeyedRows
