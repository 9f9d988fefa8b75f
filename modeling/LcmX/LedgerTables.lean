import LcmX.ClassifierSnapshot

/-!
# The table of occurrence bindings

Rows under their primary key, with the partial unique index on the ordinals of
kept rows. A write statement that would break the index raises.
-/
namespace IngestLedger

open Classifier (Disposition)

/-- A row of `occurrence_bindings`. -/
structure BindingRow where
  occId : Int
  lineage : String
  ordinal : Option Int
  storeId : Option Int
  identityDigest : Bytes
  stamp : Option String
  disposition : Disposition
deriving DecidableEq, Repr

/-- `disposition IN ('stored','migrated','ambiguous')` -/
def BindingRow.kept (r : BindingRow) : Bool :=
  r.disposition = .stored ∨ r.disposition = .migrated ∨ r.disposition = .ambiguous

/-- Two rows that `idx_occ_lineage_ordinal` does not allow together; nulls never collide. -/
def Collide (a b : BindingRow) : Prop :=
  a.kept ∧ b.kept ∧ a.lineage = b.lineage ∧ a.ordinal.isSome ∧ a.ordinal = b.ordinal

instance : DecidableRel Collide := fun a b =>
  inferInstanceAs (Decidable (a.kept ∧ b.kept ∧ a.lineage = b.lineage ∧ a.ordinal.isSome ∧ a.ordinal = b.ordinal))

def UniqueOrdinals (rows : List BindingRow) : Prop := rows.Pairwise fun a b => ¬ Collide a b

instance (rows : List BindingRow) : Decidable (UniqueOrdinals rows) :=
  inferInstanceAs (Decidable (rows.Pairwise fun a b => ¬ Collide a b))

structure BindingTable where
  rows : List BindingRow
  key : (rows.map BindingRow.occId).Nodup
  unique : UniqueOrdinals rows

/-- What a ledger write raises. -/
inductive WriteError where
  | ledger (message : String)
  /-- `LedgerTransactionError` -/
  | transaction (message : String)
  /-- `sqlite3.IntegrityError` -/
  | integrity
deriving DecidableEq, Repr

namespace BindingTable

variable {t : BindingTable}

/-- The table with other lineages and ordinals in its rows. -/
def place (rows : List BindingRow) (change : BindingRow → String × Option Int) : List BindingRow :=
  rows.map fun r => { r with lineage := (change r).1, ordinal := (change r).2 }

theorem occIds_place (rows : List BindingRow) (change : BindingRow → String × Option Int) :
    (place rows change).map BindingRow.occId = rows.map BindingRow.occId := by
  rw [place, List.map_map]
  rfl

/-- `UPDATE occurrence_bindings SET lineage, ordinal`. No statement of the ledger gives a kept row
the place that another kept row leaves in it, so looking at the index once, at the end, is looking
at it row by row. -/
def update (t : BindingTable) (change : BindingRow → String × Option Int) : Except WriteError BindingTable :=
  if h : UniqueOrdinals (place t.rows change) then .ok ⟨place t.rows change, (occIds_place t.rows change) ▸ t.key, h⟩
  else .error .integrity

/-- `UPDATE occurrence_bindings SET ordinal=? WHERE lineage=? AND ordinal=?` -/
def setOrdinal (t : BindingTable) (lineage : String) (old new : Int) : Except WriteError BindingTable :=
  t.update fun r => (r.lineage, if r.lineage = lineage ∧ r.ordinal = some old then some new else r.ordinal)

/-- `SELECT ordinal .. WHERE lineage=? AND ordinal IS NOT NULL` -/
def occupied (t : BindingTable) (lineage : String) : List Int :=
  (t.rows.filter fun r => r.lineage = lineage).filterMap BindingRow.ordinal

theorem mem_occupied {lineage : String} {o : Int} :
    o ∈ t.occupied lineage ↔ ∃ r ∈ t.rows, r.lineage = lineage ∧ r.ordinal = some o := by
  simp only [occupied, List.mem_filterMap, List.mem_filter, decide_eq_true_eq, and_assoc]

end BindingTable

/-! ## Relabelling -/

/-- A row of the lineage with its ordinal sent through a map. -/
def relabel (lineage : String) (f : Int → Int) (r : BindingRow) : BindingRow :=
  if r.lineage = lineage then { r with ordinal := r.ordinal.map f } else r

variable {lineage : String} {f g : Int → Int} {r : BindingRow} {t : BindingTable}

theorem relabel_of_eq (h : r.lineage = lineage) :
    relabel lineage f r = { r with ordinal := r.ordinal.map f } := if_pos h

theorem relabel_of_ne (h : r.lineage ≠ lineage) : relabel lineage f r = r := if_neg h

@[simp] theorem lineage_relabel (lineage : String) (f : Int → Int) (r : BindingRow) :
    (relabel lineage f r).lineage = r.lineage := by
  by_cases h : r.lineage = lineage
  · rw [relabel_of_eq h]
  · rw [relabel_of_ne h]

@[simp] theorem kept_relabel (lineage : String) (f : Int → Int) (r : BindingRow) :
    (relabel lineage f r).kept = r.kept := by
  by_cases h : r.lineage = lineage
  · rw [relabel_of_eq h]
    rfl
  · rw [relabel_of_ne h]

theorem collide_relabel (hf : Set.InjOn f {o | o ∈ t.occupied lineage}) {a b : BindingRow}
    (ha : a ∈ t.rows) (hb : b ∈ t.rows)
    (h : Collide (relabel lineage f a) (relabel lineage f b)) : Collide a b := by
  obtain ⟨hka, hkb, hlineage, hsome, heq⟩ := h
  rw [kept_relabel] at hka hkb
  rw [lineage_relabel, lineage_relabel] at hlineage
  by_cases hl : a.lineage = lineage
  · rw [relabel_of_eq hl] at hsome heq
    rw [relabel_of_eq (hlineage ▸ hl)] at heq
    dsimp only at hsome heq
    obtain ⟨o, ho⟩ := Option.isSome_iff_exists.mp (Option.isSome_map ▸ hsome)
    rw [ho, Option.map_some] at heq
    obtain ⟨o', ho', hfo⟩ := Option.map_eq_some_iff.mp heq.symm
    have hin : o ∈ t.occupied lineage := BindingTable.mem_occupied.mpr ⟨a, ha, hl, ho⟩
    have hin' : o' ∈ t.occupied lineage := BindingTable.mem_occupied.mpr ⟨b, hb, hlineage ▸ hl, ho'⟩
    have hsame := hf hin' hin hfo
    exact ⟨hka, hkb, hlineage, by rw [ho]; rfl, by rw [ho, ho', hsame]⟩
  · rw [relabel_of_ne hl] at hsome heq
    rw [relabel_of_ne (hlineage ▸ hl)] at heq
    exact ⟨hka, hkb, hlineage, hsome, heq⟩

/-- A map that keeps the ordinals of the lineage apart keeps the index. -/
theorem uniqueOrdinals_relabel (hf : Set.InjOn f {o | o ∈ t.occupied lineage}) :
    UniqueOrdinals (t.rows.map (relabel lineage f)) := by
  rw [UniqueOrdinals, List.pairwise_map]
  apply t.unique.imp_of_mem
  intro a b ha hb hab hcollide
  exact hab (collide_relabel hf ha hb hcollide)

/-- One replacement of a value. -/
def replace (a b x : Int) : Int := if x = a then b else x

theorem place_relabel (rows : List BindingRow) (f : Int → Int) (a b : Int) :
    BindingTable.place (rows.map (relabel lineage f))
        (fun r => (r.lineage, if r.lineage = lineage ∧ r.ordinal = some a then some b else r.ordinal)) =
      rows.map (relabel lineage fun o => replace a b (f o)) := by
  rw [BindingTable.place, List.map_map]
  apply List.map_congr_left
  intro r _
  rw [Function.comp_apply]
  by_cases hl : r.lineage = lineage
  · rw [relabel_of_eq hl, relabel_of_eq hl]
    cases ho : r.ordinal with
    | none => simp
    | some o =>
      unfold replace
      by_cases hfo : f o = a
      · simp [hl, hfo]
      · simp [hl, hfo]
  · rw [relabel_of_ne hl, relabel_of_ne hl]
    simp [hl]

theorem setOrdinal_relabel {u : BindingTable} (hu : u.rows = t.rows.map (relabel lineage f)) {a b : Int}
    (hf : Set.InjOn (fun o => replace a b (f o)) {o | o ∈ t.occupied lineage}) :
    ∃ v, u.setOrdinal lineage a b = .ok v ∧ v.rows = t.rows.map (relabel lineage fun o => replace a b (f o)) := by
  have hrows := @place_relabel lineage t.rows f a b
  rw [← hu] at hrows
  have hunique := uniqueOrdinals_relabel hf
  rw [← hrows] at hunique
  unfold BindingTable.setOrdinal BindingTable.update
  rw [dif_pos hunique]
  exact ⟨_, rfl, hrows⟩

end IngestLedger
