import Mathlib.Data.List.Nodup

/-!
# Tables with a logged field

Rows of a table carry a key and one field that is written in place. A change
records the value before and after. Writing the old values back, last change
first, restores every row; replaying the new values reproduces the field.
-/
namespace ChangeLog

/-- A field of the rows of a table, and the key that addresses a row. -/
structure Column (ρ κ φ : Type) where
  key : ρ → κ
  get : ρ → φ
  set : φ → ρ → ρ
  key_set : ∀ v r, key (set v r) = key r
  get_set : ∀ v r, get (set v r) = v
  set_get : ∀ r, set (get r) r = r
  set_set : ∀ v w r, set v (set w r) = set v r

structure Change (κ φ : Type) where
  id : κ
  before : φ
  after : φ
  deriving DecidableEq, Repr

namespace Column

variable {ρ κ φ : Type} [DecidableEq κ] (c : Column ρ κ φ)

/-- `UPDATE .. SET field = v WHERE key = k` -/
def write (k : κ) (v : φ) (rows : List ρ) : List ρ := rows.map (fun r => if c.key r = k then c.set v r else r)

/-- The field of the row with this key. -/
def value (rows : List ρ) (k : κ) : Option φ := (rows.find? (fun r => c.key r = k)).map c.get

def writeAll (ws : List (κ × φ)) (rows : List ρ) : List ρ := ws.foldl (fun rows w => c.write w.1 w.2 rows) rows

/-- The old values written back, last change first. -/
def rewind (log : List (Change κ φ)) (rows : List ρ) : List ρ :=
  c.writeAll (log.reverse.map (fun ch => (ch.id, ch.before))) rows

/-! ## Writing -/

theorem write_append (k : κ) (v : φ) (a b : List ρ) : c.write k v (a ++ b) = c.write k v a ++ c.write k v b :=
  List.map_append

theorem map_key_write (k : κ) (v : φ) (rows : List ρ) : (c.write k v rows).map c.key = rows.map c.key := by
  rw [write, List.map_map]
  apply List.map_congr_left
  intro r _
  by_cases h : c.key r = k
  · simp [h, c.key_set]
  · simp [h]

theorem write_of_not_mem {k : κ} {rows : List ρ} (h : k ∉ rows.map c.key) (v : φ) : c.write k v rows = rows := by
  conv => rhs; rw [← List.map_id rows]
  apply List.map_congr_left
  intro r hr
  have hne : c.key r ≠ k := fun he => h (he ▸ List.mem_map_of_mem hr)
  rw [if_neg hne]
  rfl

theorem mem_write {k : κ} {v : φ} {rows : List ρ} {r : ρ} : r ∈ c.write k v rows ↔
    (r ∈ rows ∧ c.key r ≠ k) ∨ ∃ r0 ∈ rows, c.key r0 = k ∧ r = c.set v r0 := by
  constructor
  · intro h
    obtain ⟨r0, hr0, rfl⟩ := List.mem_map.mp h
    by_cases hk : c.key r0 = k
    · rw [if_pos hk]
      exact Or.inr ⟨r0, hr0, hk, rfl⟩
    · rw [if_neg hk]
      exact Or.inl ⟨hr0, hk⟩
  · intro h
    cases h with
    | inl h => exact List.mem_map.mpr ⟨r, h.1, if_neg h.2⟩
    | inr h =>
      obtain ⟨r0, hr0, hk, rfl⟩ := h
      exact List.mem_map.mpr ⟨r0, hr0, if_pos hk⟩

/-- Writing the value a row had takes a write back. -/
theorem write_back {k : κ} {v : φ} {rows : List ρ} (h : ∀ r ∈ rows, c.key r = k → c.get r = v) (w : φ) :
    c.write k v (c.write k w rows) = rows := by
  rw [write, write, List.map_map]
  conv => rhs; rw [← List.map_id rows]
  apply List.map_congr_left
  intro r hr
  by_cases hk : c.key r = k
  · have hget := h r hr hk
    simp only [Function.comp_apply, if_pos hk, c.key_set, c.set_set, id_eq]
    rw [← hget, c.set_get]
  · simp only [Function.comp_apply, if_neg hk, id_eq]

/-! ## The current value -/

theorem value_eq_none {rows : List ρ} {k : κ} (h : k ∉ rows.map c.key) : c.value rows k = none := by
  rw [value, List.find?_eq_none.mpr, Option.map_none]
  intro r hr he
  exact h (by rw [← of_decide_eq_true he]; exact List.mem_map_of_mem hr)

theorem value_of_mem {rows : List ρ} (hnodup : (rows.map c.key).Nodup) {r : ρ} (hr : r ∈ rows) :
    c.value rows (c.key r) = some (c.get r) := by
  cases hf : rows.find? (fun x => c.key x = c.key r) with
  | none => exact absurd (List.find?_eq_none.mp hf r hr) (by simp)
  | some x =>
    have hx := List.mem_of_find?_eq_some hf
    have hk : c.key x = c.key r := by simpa using List.find?_some hf
    rw [value, hf, List.inj_on_of_nodup_map hnodup hx hr hk, Option.map_some]

theorem value_cons (r : ρ) (rows : List ρ) (k : κ) :
    c.value (r :: rows) k = if c.key r = k then some (c.get r) else c.value rows k := by
  by_cases h : c.key r = k
  · simp [value, h]
  · simp [value, h]

theorem value_write (k : κ) (v : φ) (rows : List ρ) : c.value (c.write k v rows) =
    fun k' => if k' = k then (c.value rows k).map (fun _ => v) else c.value rows k' := by
  funext k'
  induction rows with
  | nil => simp [value, write]
  | cons r rows ih =>
    rw [write, List.map_cons, ← write, value_cons, value_cons, value_cons, ih]
    by_cases hr : c.key r = k
    · rw [if_pos hr, if_pos hr, c.key_set, c.get_set, hr]
      by_cases hk : k' = k
      · simp [hk]
      · have hne : ¬ k = k' := fun h => hk h.symm
        simp [hk, hne]
    · rw [if_neg hr, if_neg hr]
      by_cases hk : k' = k
      · simp [hk, hr]
      · simp [hk]

theorem value_append_single {rows : List ρ} {r : ρ} (h : c.key r ∉ rows.map c.key) :
    c.value (rows ++ [r]) = Function.update (c.value rows) (c.key r) (some (c.get r)) := by
  funext k
  by_cases hk : k = c.key r
  · subst hk
    have hnone : rows.find? (fun x => c.key x = c.key r) = none := by
      have := c.value_eq_none h
      rw [value, Option.map_eq_none_iff] at this
      exact this
    simp [value, List.find?_append, hnone]
  · have hne : ¬ c.key r = k := fun he => hk he.symm
    rw [Function.update_of_ne hk]
    simp [value, List.find?_append, hne]

/-! ## Many writes -/

theorem map_key_writeAll (ws : List (κ × φ)) : ∀ rows : List ρ, (c.writeAll ws rows).map c.key = rows.map c.key := by
  induction ws with
  | nil => exact fun _ => rfl
  | cons w ws ih => exact fun rows => (ih _).trans (c.map_key_write w.1 w.2 rows)

theorem writeAll_append (ws : List (κ × φ)) :
    ∀ a b : List ρ, c.writeAll ws (a ++ b) = c.writeAll ws a ++ c.writeAll ws b := by
  induction ws with
  | nil => exact fun _ _ => rfl
  | cons w ws ih =>
    intro a b
    simp only [writeAll, List.foldl_cons] at ih ⊢
    rw [write_append, ih]

theorem writeAll_of_disjoint {ws : List (κ × φ)} : ∀ {rows : List ρ}, (∀ w ∈ ws, w.1 ∉ rows.map c.key) →
    c.writeAll ws rows = rows := by
  induction ws with
  | nil => exact fun _ => rfl
  | cons w ws ih =>
    intro rows h
    rw [writeAll, List.foldl_cons, c.write_of_not_mem (h w List.mem_cons_self)]
    exact ih (fun x hx => h x (List.mem_cons_of_mem _ hx))

/-- A row is as it was, or carries one of the values written to it. -/
theorem mem_writeAll {ws : List (κ × φ)} : ∀ {rows : List ρ} {r : ρ}, r ∈ c.writeAll ws rows →
    (r ∈ rows ∧ c.key r ∉ ws.map Prod.fst) ∨ ∃ r0 ∈ rows, ∃ w ∈ ws, w.1 = c.key r0 ∧ r = c.set w.2 r0 := by
  induction ws with
  | nil => exact fun h => Or.inl ⟨h, by simp⟩
  | cons w ws ih =>
    intro rows r h
    rw [writeAll, List.foldl_cons] at h
    rcases ih h with ⟨hr, hnot⟩ | ⟨r1, hr1, x, hx, hk, rfl⟩
    · rcases (c.mem_write).mp hr with ⟨hr, hne⟩ | ⟨r0, hr0, hk, rfl⟩
      · exact Or.inl ⟨hr, by simp [hne, hnot]⟩
      · exact Or.inr ⟨r0, hr0, w, List.mem_cons_self, hk.symm, rfl⟩
    · rcases (c.mem_write).mp hr1 with ⟨hr1, -⟩ | ⟨r0, hr0, -, rfl⟩
      · exact Or.inr ⟨r1, hr1, x, List.mem_cons_of_mem _ hx, hk, rfl⟩
      · rw [c.key_set] at hk
        exact Or.inr ⟨r0, hr0, x, List.mem_cons_of_mem _ hx, hk, c.set_set _ _ _⟩

/-! ## Rewinding -/

omit [DecidableEq κ] in
theorem rewind_ids (log : List (Change κ φ)) :
    (log.reverse.map (fun ch => (ch.id, ch.before))).map Prod.fst = (log.map Change.id).reverse := by
  simp [List.map_map, Function.comp_def]

theorem map_key_rewind (log : List (Change κ φ)) (rows : List ρ) : (c.rewind log rows).map c.key = rows.map c.key :=
  c.map_key_writeAll _ rows

theorem rewind_append (log : List (Change κ φ)) (a b : List ρ) :
    c.rewind log (a ++ b) = c.rewind log a ++ c.rewind log b := c.writeAll_append _ a b

/-- One more logged write is taken back first. -/
theorem rewind_write {log : List (Change κ φ)} {rows : List ρ} {ch : Change κ φ}
    (h : ∀ r ∈ rows, c.key r = ch.id → c.get r = ch.before) :
    c.rewind (log ++ [ch]) (c.write ch.id ch.after rows) = c.rewind log rows := by
  rw [rewind, List.reverse_append, List.reverse_singleton, List.singleton_append, List.map_cons,
    writeAll, List.foldl_cons,
    c.write_back h]
  rfl

theorem mem_rewind {log : List (Change κ φ)} {rows : List ρ} {r : ρ} (h : r ∈ c.rewind log rows) :
    (r ∈ rows ∧ c.key r ∉ log.map Change.id) ∨ ∃ r0 ∈ rows, ∃ ch ∈ log, ch.id = c.key r0 ∧ r = c.set ch.before r0 := by
  rcases c.mem_writeAll h with ⟨hr, hnot⟩ | ⟨r0, hr0, w, hw, hk, rfl⟩
  · rw [rewind_ids, List.mem_reverse] at hnot
    exact Or.inl ⟨hr, hnot⟩
  · obtain ⟨ch, hch, rfl⟩ := List.mem_map.mp hw
    exact Or.inr ⟨r0, hr0, ch, List.mem_reverse.mp hch, hk, rfl⟩

/-! ## Replaying -/

/-- The map with the new rows at their first value. -/
def born (first : φ) (m : κ → Option φ) (ids : List κ) : κ → Option φ :=
  ids.foldl (fun m id => Function.update m id (some first)) m

def redo (m : κ → Option φ) (log : List (Change κ φ)) : κ → Option φ :=
  log.foldl (fun m ch => Function.update m ch.id (some ch.after)) m

theorem born_snoc (first : φ) (m : κ → Option φ) (ids : List κ) (id : κ) :
    born first m (ids ++ [id]) = Function.update (born first m ids) id (some first) := by
  simp [born, List.foldl_append]

theorem redo_snoc (m : κ → Option φ) (log : List (Change κ φ)) (ch : Change κ φ) :
    redo m (log ++ [ch]) = Function.update (redo m log) ch.id (some ch.after) := by
  simp [redo, List.foldl_append]

/-- A row that no change names may be made before or after the changes. -/
theorem redo_update {log : List (Change κ φ)} {k : κ} (h : k ∉ log.map Change.id) (v : Option φ) : ∀ m : κ → Option φ,
    redo (Function.update m k v) log = Function.update (redo m log) k v := by
  induction log with
  | nil => exact fun _ => rfl
  | cons ch log ih =>
    intro m
    rw [List.map_cons, List.mem_cons, not_or] at h
    rw [redo, List.foldl_cons, ← redo, Function.update_comm h.1, ih h.2]
    rfl

/-- The rows of a table that was `rows0`, with the new keys and the logged writes
since. -/
inductive Derives (first : φ) (rows0 : List ρ) : List ρ → List κ → List (Change κ φ) → Prop
  | start : Derives first rows0 rows0 [] []
  | insert {rows : List ρ} {created : List κ} {log : List (Change κ φ)}
      (h : Derives first rows0 rows created log) (r : ρ)
      (hfresh : c.key r ∉ rows.map c.key) (hfirst : c.get r = first) :
      Derives first rows0 (rows ++ [r]) (created ++ [c.key r]) log
  | write {rows : List ρ} {created : List κ} {log : List (Change κ φ)}
      (h : Derives first rows0 rows created log) (r : ρ)
      (hr : r ∈ rows) (v : φ) :
      Derives first rows0 (c.write (c.key r) v rows) created (log ++ [⟨c.key r, c.get r, v⟩])

namespace Derives

variable {c} {first : φ} {rows0 rows : List ρ} {created : List κ} {log : List (Change κ φ)}

theorem map_key (h : c.Derives first rows0 rows created log) : rows.map c.key = rows0.map c.key ++ created := by
  induction h with
  | start => simp
  | insert _ r _ _ ih => rw [List.map_append, ih, List.map_singleton, List.append_assoc]
  | write _ r _ v ih => rw [map_key_write, ih]

theorem nodup (h : c.Derives first rows0 rows created log) (h0 : (rows0.map c.key).Nodup) : (rows.map c.key).Nodup := by
  induction h with
  | start => exact h0
  | insert _ r hfresh _ ih =>
    rw [List.map_append]
    exact ih.append (List.nodup_singleton _) (by simpa using hfresh)
  | write _ r _ v ih =>
    rw [map_key_write]
    exact ih

theorem log_subset (h : c.Derives first rows0 rows created log) : log.map Change.id ⊆ rows.map c.key := by
  induction h with
  | start => exact List.nil_subset _
  | insert _ r _ _ ih =>
    rw [List.map_append]
    exact List.Subset.trans ih (List.subset_append_left _ _)
  | write _ r hr v ih =>
    rw [List.map_append, map_key_write]
    exact List.append_subset.mpr ⟨ih, by simpa using ⟨r, hr, rfl⟩⟩

/-- Replaying the payload reproduces the field. -/
theorem value_eq (h : c.Derives first rows0 rows created log) (h0 : (rows0.map c.key).Nodup) :
    c.value rows = redo (born first (c.value rows0) created) log := by
  induction h with
  | start => rfl
  | insert hd r hfresh hfirst ih =>
    have hnot := fun hin => hfresh (hd.log_subset hin)
    rw [value_append_single c hfresh, ih, hfirst, born_snoc, redo_update hnot]
  | write hd r hr v ih =>
    have hv := value_of_mem c (hd.nodup h0) hr
    rw [redo_snoc, ← ih, value_write, hv]
    funext k
    by_cases hk : k = c.key r
    · simp [hk]
    · simp [hk]

/-- Writing the old values back gives the rows of the start, and the rows made
since stay apart from them. -/
theorem rewind_eq (h : c.Derives first rows0 rows created log) (h0 : (rows0.map c.key).Nodup) :
    ∃ base made, rows = base ++ made ∧ made.map c.key = created ∧ c.rewind log base = rows0 := by
  induction h with
  | start => exact ⟨rows0, [], by simp, rfl, rfl⟩
  | insert _ r _ _ ih =>
    obtain ⟨base, made, rfl, hmade, hbase⟩ := ih
    exact ⟨base, made ++ [r], by simp, by simp [hmade], hbase⟩
  | write hd r hr v ih =>
    obtain ⟨base, made, rfl, hmade, hbase⟩ := ih
    refine ⟨c.write (c.key r) v base, c.write (c.key r) v made, write_append c _ _ _ _, ?_, ?_⟩
    · rw [map_key_write, hmade]
    · rw [← hbase]
      refine rewind_write c (fun x hx hk => ?_)
      rw [List.inj_on_of_nodup_map (hd.nodup h0) (List.mem_append_left _ hx) hr hk]

end Derives

end Column

end ChangeLog
