import LcmX.LedgerMerge

/-!
# An adopted lineage keeps the ledger

The occurrences of both lineages come out of the merge as they went in, with the
moved ones behind the others in their old order.
-/
namespace IngestLedger

open Classifier (RecordKind)
open Fallible

/-! ## Pairs -/

/-- The queues hold rows of their own key, each once. -/
structure Queues (keyed : String × Bytes → List BindingRow) : Prop where
  nodup : ∀ key, (keyed key).Nodup
  own : ∀ key, ∀ r ∈ keyed key, r.stamp = some key.1 ∧ r.identityDigest = key.2

/-- A source row and a target row that may be a replay of one another. -/
structure Alike (p : BindingRow × BindingRow) : Prop where
  stamped : p.1.stamp.isSome
  stamp : p.1.stamp = p.2.stamp
  digest : p.1.identityDigest = p.2.identityDigest
  store : p.1.storeId ≠ p.2.storeId

variable {keyed : String × Bytes → List BindingRow} {key : String × Bytes}

variable {first : BindingRow} {others : List BindingRow} {rows : List ViewRow}

theorem Queues.tail (h : Queues keyed) (hkey : keyed key = first :: others) :
    Queues (Function.update keyed key others) := by
  have hnodup := h.nodup key
  rw [hkey, List.nodup_cons] at hnodup
  constructor
  · intro k
    by_cases hk : k = key
    · subst hk
      rw [Function.update_self]
      exact hnodup.2
    · rw [Function.update_of_ne hk]
      exact h.nodup k
  · intro k r hr
    by_cases hk : k = key
    · subst hk
      rw [Function.update_self] at hr
      exact h.own k r (hkey ▸ List.mem_cons_of_mem first hr)
    · rw [Function.update_of_ne hk] at hr
      exact h.own k r hr

theorem Queues.gone (h : Queues keyed) (hkey : keyed key = first :: others)
    (k : String × Bytes) : first ∉ Function.update keyed key others k := by
  have hfirst := h.own key first (hkey ▸ List.mem_cons_self)
  have hnodup := h.nodup key
  rw [hkey, List.nodup_cons] at hnodup
  intro hin
  by_cases hk : k = key
  · subst hk
    rw [Function.update_self] at hin
    exact hnodup.1 hin
  · rw [Function.update_of_ne hk] at hin
    have hother := h.own k first hin
    apply hk
    apply Prod.ext
    · exact Option.some.inj (hother.1.symm.trans hfirst.1)
    · exact hother.2.symm.trans hfirst.2

theorem mem_update_tail {r : BindingRow} (hkey : keyed key = first :: others)
    {k : String × Bytes} (hr : r ∈ Function.update keyed key others k) : r ∈ keyed k := by
  by_cases hk : k = key
  · subst hk
    rw [Function.update_self] at hr
    exact hkey ▸ List.mem_cons_of_mem first hr
  · rwa [Function.update_of_ne hk] at hr

theorem pairRows_sources (source : List BindingRow) :
    ∀ keyed, ((pairRows source keyed).map Prod.fst).Sublist source := by
  induction source with
  | nil => exact fun _ => .slnil
  | cons row source ih =>
    intro keyed
    unfold pairRows
    split
    · exact (ih keyed).cons row
    · split
      · exact (ih keyed).cons row
      · split
        · exact (ih _).cons_cons row
        · exact (ih keyed).cons row

/-- Rows are paired with distinct rows that are alike. -/
theorem pairRows_targets (source : List BindingRow) :
    ∀ keyed, Queues keyed → ((pairRows source keyed).map Prod.snd).Nodup ∧
      ∀ p ∈ pairRows source keyed, Alike p ∧ ∃ key, p.2 ∈ keyed key := by
  induction source with
  | nil => exact fun _ _ => ⟨List.nodup_nil, List.forall_mem_nil _⟩
  | cons row source ih =>
    intro keyed hqueues
    unfold pairRows
    split
    · exact ih keyed hqueues
    · next stamp hstamp =>
      split
      · exact ih keyed hqueues
      · next first others hkey =>
        split
        · next hstore =>
          obtain ⟨hnodup, hall⟩ := ih _ (hqueues.tail hkey)
          have hin : first ∈ keyed (stamp, row.identityDigest) := hkey ▸ List.mem_cons_self
          constructor
          · rw [List.map_cons, List.nodup_cons]
            refine ⟨fun hmem => ?_, hnodup⟩
            obtain ⟨p, hp, hsame⟩ := List.mem_map.mp hmem
            obtain ⟨-, k, hk⟩ := hall p hp
            rw [hsame] at hk
            exact hqueues.gone hkey k hk
          · intro p hp
            cases hp with
            | head =>
              have hown := hqueues.own _ first hin
              exact ⟨⟨hstamp ▸ rfl, hstamp.trans hown.1.symm, hown.2.symm, fun he => hstore he.symm⟩, _, hin⟩
            | tail _ hp =>
              obtain ⟨halike, k, hk⟩ := hall p hp
              exact ⟨halike, k, mem_update_tail hkey hk⟩
        · exact ih keyed hqueues

theorem BindingTable.nodup_keptRows (t : BindingTable) (lineage : String) : (t.keptRows lineage).Nodup := by
  unfold keptRows
  rw [(List.perm_insertionSort _ _).nodup_iff]
  exact (List.Nodup.of_map BindingRow.occId t.key).filter _

theorem queues_keyedRows {target : List BindingRow} (h : target.Nodup) : Queues (keyedRows target) := by
  constructor
  · intro key
    exact h.filter _
  · intro key r hr
    simpa using (List.mem_filter.mp hr).2

/-! ## Labels behind the target -/

theorem planOrdinals_accepted {existing : List Int} {placements : List Placement}
    {plan : List (Option Int) × List (Int × Int)}
    (h : planOrdinals existing placements = .ok plan) :
    (∀ v ∈ existing, 0 < v ∧ v ≤ maxOrdinal) ∧ Accepted existing placements := by
  unfold planOrdinals at h
  change (if ∃ v ∈ sortedLabels existing, ¬ (0 < v ∧ v ≤ maxOrdinal) then _ else
    (placements.foldlM (groupPlacement (sortedLabels existing)) {}) >>= _) = _ at h
  by_cases hbad : ∃ v ∈ sortedLabels existing, ¬ (0 < v ∧ v ≤ maxOrdinal)
  · rw [if_pos hbad] at h
    cases h
  · rw [if_neg hbad, bind_ok] at h
    obtain ⟨grouping, hgrouping, -⟩ := h
    refine ⟨fun v hv => ?_, grouping, hgrouping⟩
    by_contra hnot
    exact hbad ⟨v, mem_sortedLabels.mpr hv, hnot⟩

/-- Without a re-spacing the labels behind the largest ordinal increase. -/
theorem plan_behind {maximum : Option Int} {count : Nat} {new : List (Option Int)}
    (h : planOrdinals maximum.toList (List.replicate count ⟨maximum, none, none⟩) = .ok (new, [])) :
    ∃ labels : List Int, new = labels.map some ∧ labels.length = count ∧ labels.Pairwise (· < ·) ∧
      ∀ label ∈ labels, ∀ m ∈ maximum, m < label := by
  obtain ⟨hrange, haccepted⟩ := planOrdinals_accepted h
  obtain herror | ⟨labels, moved, hok, hspec⟩ := planOrdinals_spec hrange haccepted
  · rw [h] at herror
    cases herror
  · rw [h] at hok
    cases hok
    refine ⟨labels, rfl, by simpa using hspec.count, hspec.increasing, fun label hlabel m hm => ?_⟩
    obtain ⟨i, hi⟩ := List.mem_iff_getElem?.mp hlabel
    have hcount : i < count := by
      have hlt := (List.getElem?_eq_some_iff.mp hi).1
      rwa [hspec.count, List.length_replicate] at hlt
    exact hspec.left i _ label (List.getElem?_replicate_of_lt hcount) hi m hm

theorem renamed_zip : ∀ {olds labels : List Int} {k : Nat} {v w : Int}, olds.Nodup →
    olds[k]? = some v → labels[k]? = some w →
    renamed (olds.zip labels) v = w := by
  intro olds
  induction olds with
  | nil => simp
  | cons old olds ih =>
    intro labels k v w hnodup hv hw
    obtain ⟨hnot, hnodup⟩ := List.nodup_cons.mp hnodup
    cases labels with
    | nil => simp at hw
    | cons label labels =>
      cases k with
      | zero =>
        cases hv
        cases hw
        simp [renamed]
      | succ k =>
        rw [List.getElem?_cons_succ] at hv hw
        have hne : old ≠ v := fun he => hnot (he ▸ List.mem_of_getElem? hv)
        have hrest := ih hnodup hv hw
        unfold renamed at hrest ⊢
        rwa [List.zip_cons_cons, List.find?_cons_of_neg (by simpa using hne)]

/-! ## Moved rows -/

/-- A row of the provisional lineage with the label of its ordinal; a null stays. -/
def adoptRow (provisional lineage : String) (φ : Int → Int) (r : BindingRow) : BindingRow :=
  if r.lineage = provisional then { r with lineage := lineage, ordinal := r.ordinal.map φ } else r

/-- What the single statements make of a row. -/
def movedRow (provisional lineage : String) (moves : List (Int × Int)) (r : BindingRow) : BindingRow :=
  if r.lineage = provisional ∧ ∃ o ∈ r.ordinal, o ∈ moves.map Prod.fst then
    { r with lineage := lineage, ordinal := r.ordinal.map (renamed moves) }
  else r

theorem BindingTable.rows_update {t t' : BindingTable} {change : BindingRow → String × Option Int}
    (h : t.update change = .ok t') :
    t'.rows = place t.rows change := by
  unfold update at h
  split at h
  · cases h
    rfl
  · cases h

variable {provisional lineage : String}

theorem movedRow_of_ne {moves : List (Int × Int)} {r : BindingRow} (h : r.lineage ≠ provisional) :
    movedRow provisional lineage moves r = r := if_neg fun hm => h hm.1

/-- Moving a row first and then by the other moves is moving it by all. -/
theorem movedRow_cons (hne : provisional ≠ lineage) (m : Int × Int) (moves : List (Int × Int)) (r : BindingRow) :
    movedRow provisional lineage moves
        { r with
          lineage := (moveRow provisional lineage m.1 (some m.2) r).1
          ordinal := (moveRow provisional lineage m.1 (some m.2) r).2 } =
      movedRow provisional lineage (m :: moves) r := by
  unfold moveRow
  by_cases hl : r.lineage = provisional
  · obtain ⟨occId, l, ordinal, storeId, digest, stamp, disposition⟩ := r
    change l = provisional at hl
    subst hl
    cases ordinal with
    | none => simp [movedRow]
    | some o =>
      by_cases hm : o = m.1
      · subst hm
        simp only [and_self, if_true]
        rw [movedRow_of_ne (fun he => hne he.symm)]
        simp [movedRow, renamed]
      · have hne' : m.1 ≠ o := fun he => hm he.symm
        have hrenamed : renamed (m :: moves) o = renamed moves o := by
          unfold renamed
          rw [List.find?_cons_of_neg (by simpa using hne')]
        have hsome : ¬ (some o = some m.1) := fun he => hm (Option.some.inj he)
        simp only [hsome, and_false, if_false]
        by_cases hin : o ∈ moves.map Prod.fst
        · rw [movedRow, if_pos ⟨rfl, o, rfl, hin⟩, movedRow, if_pos ⟨rfl, o, rfl, List.mem_cons_of_mem _ hin⟩]
          simp [hrenamed]
        · rw [movedRow, if_neg (by simpa using hin), movedRow, if_neg (by simpa [hm] using hin)]
  · simp only [hl, false_and, if_false]
    rw [movedRow_of_ne hl, movedRow_of_ne hl]

theorem rows_moveBindings (hne : provisional ≠ lineage) (moves : List (Int × Int)) : ∀ {t t' : BindingTable},
    moveBindings provisional lineage (moves.map fun m => (m.1, some m.2)) t = .ok t' →
      t'.rows = t.rows.map (movedRow provisional lineage moves) := by
  induction moves with
  | nil =>
    intro t t' h
    cases h
    conv_lhs => rw [← List.map_id t.rows]
    apply List.map_congr_left
    intro r _
    simp [movedRow]
  | cons m moves ih =>
    intro t t' h
    unfold moveBindings at h
    rw [List.map_cons, List.foldlM_cons, bind_ok] at h
    obtain ⟨mid, hmid, h⟩ := h
    rw [ih h, BindingTable.rows_update hmid, BindingTable.place, List.map_map]
    apply List.map_congr_left
    intro r _
    exact movedRow_cons hne m moves r

/-- After both kinds of statement every provisional row is adopted. -/
theorem rows_adopted (hne : provisional ≠ lineage) {t moved t' : BindingTable} {labels : List Int}
    (hcount : labels.length = (sortedLabels (t.occupied provisional)).length)
    (hmoved : moveBindings provisional lineage
    ((sortedLabels (t.occupied provisional)).zip (labels.map some)) t = .ok moved)
    (hupdate : (moved.update fun r => (rekey provisional lineage r.lineage, r.ordinal)) = .ok t') :
    t'.rows = t.rows.map (adoptRow provisional lineage
    (renamed ((sortedLabels (t.occupied provisional)).zip labels))) := by
  have hzip : (sortedLabels (t.occupied provisional)).zip (labels.map some) =
      ((sortedLabels (t.occupied provisional)).zip labels).map fun m => (m.1, some m.2) := List.zip_map_right ..
  rw [hzip] at hmoved
  rw [BindingTable.rows_update hupdate, rows_moveBindings hne _ hmoved, BindingTable.place, List.map_map]
  apply List.map_congr_left
  intro r hr
  rw [Function.comp_apply]
  by_cases hl : r.lineage = provisional
  · cases ho : r.ordinal with
    | none => simp [movedRow, adoptRow, rekey, hl, ho]
    | some o =>
      have hin : o ∈ ((sortedLabels (t.occupied provisional)).zip labels).map Prod.fst := by
        rw [List.map_fst_zip (by omega), mem_sortedLabels, BindingTable.mem_occupied]
        exact ⟨r, hr, hl, ho⟩
      unfold movedRow
      rw [if_pos ⟨hl, o, ho, hin⟩]
      simp [adoptRow, rekey, hl, ho]
  · rw [movedRow_of_ne hl]
    simp [adoptRow, rekey, hl]

/-! ## Views -/

/-- The first elements of a list that decreases are its largest. -/
theorem newest_or_older {l : List Int} (hnodup : l.Nodup) (n : Nat) {v : Int} (hv : v ∈ l) :
    v ∈ (l.insertionSort (· ≥ ·)).take n ∨
      ((l.insertionSort (· ≥ ·)).take n).length = n ∧ ∀ w ∈ (l.insertionSort (· ≥ ·)).take n, v < w := by
  by_cases hin : v ∈ (l.insertionSort (· ≥ ·)).take n
  · exact .inl hin
  · right
    have hperm := List.perm_insertionSort (· ≥ ·) l
    have hsorted : (l.insertionSort (· ≥ ·)).Pairwise (· > ·) := by
      have hpairs := List.pairwise_insertionSort (· ≥ ·) l
      exact hpairs.imp₂ (fun a b hge hne => lt_of_le_of_ne hge hne.symm) (hperm.nodup_iff.mpr hnodup)
    have hmem : v ∈ l.insertionSort (· ≥ ·) := hperm.mem_iff.mpr hv
    rw [← List.take_append_drop n (l.insertionSort (· ≥ ·))] at hmem hsorted
    have hdrop : v ∈ (l.insertionSort (· ≥ ·)).drop n := (List.mem_append.mp hmem).resolve_left hin
    refine ⟨?_, fun w hw => (List.pairwise_append.mp hsorted).2.2 w hw v hdrop⟩
    have hpos := List.length_pos_of_mem hdrop
    rw [List.length_drop] at hpos
    rw [List.length_take]
    omega

def viewsOf (lineage : String) (kind : RecordKind) (rows : List ViewRow) : List ViewRow :=
  rows.filter fun v => v.lineage = lineage ∧ v.kind = kind

theorem mem_viewsOf {kind : RecordKind} {v : ViewRow} :
    v ∈ viewsOf lineage kind rows ↔ v ∈ rows ∧ v.lineage = lineage ∧ v.kind = kind := by
  simp [viewsOf]

theorem nodup_viewsOf (h : (rows.map fun v => (v.lineage, v.kind, v.viewSeq)).Nodup) (lineage : String)
    (kind : RecordKind) : ((viewsOf lineage kind rows).map ViewRow.viewSeq).Nodup := by
  have hsub : ((viewsOf lineage kind rows).map fun v => (v.lineage, v.kind, v.viewSeq)).Nodup :=
    h.sublist (List.filter_sublist.map _)
  unfold List.Nodup at hsub ⊢
  rw [List.pairwise_map] at hsub ⊢
  apply hsub.imp_of_mem
  intro a b ha hb hkey hseq
  obtain ⟨-, hla, hka⟩ := mem_viewsOf.mp ha
  obtain ⟨-, hlb, hkb⟩ := mem_viewsOf.mp hb
  exact hkey (by rw [hla, hlb, hka, hkb, hseq])

/-- The views of a kind that a pruning leaves. -/
def keptViews (lineage : String) (kind : RecordKind) (rows : List ViewRow) : List ViewRow :=
  (viewsOf lineage kind rows).filter fun v => v.viewSeq ∈ newestSeqs lineage kind rows

variable {t : KeyedRows ViewRow (String × RecordKind × Int) fun v => (v.lineage, v.kind, v.viewSeq)}
  {kind kind' : RecordKind}

theorem viewsOf_pruneViews (lineage : String) (kind : RecordKind) :
    viewsOf lineage kind (pruneViews lineage kind t).rows = keptViews lineage kind t.rows := by
  rw [pruneViews, KeyedRows.delete, keptViews, viewsOf, viewsOf, List.filter_filter, List.filter_filter]
  apply List.filter_congr
  intro v _
  by_cases hl : v.lineage = lineage ∧ v.kind = kind
  · simp [hl]
  · rw [decide_eq_false hl]
    simp

theorem viewsOf_pruneViews_of_ne (h : kind ≠ kind') :
    viewsOf lineage kind (pruneViews lineage kind' t).rows = viewsOf lineage kind t.rows := by
  rw [pruneViews, KeyedRows.delete, viewsOf, viewsOf, List.filter_filter]
  apply List.filter_congr
  intro v _
  by_cases hl : v.lineage = lineage ∧ v.kind = kind
  · simp [hl, h]
  · rw [decide_eq_false hl, Bool.false_and]

theorem viewsOf_pruned (kind : RecordKind) :
    viewsOf lineage kind (pruneViews lineage .emission (pruneViews lineage .ingest t)).rows =
      keptViews lineage kind t.rows := by
  cases kind with
  | ingest => rw [viewsOf_pruneViews_of_ne (by decide), viewsOf_pruneViews]
  | emission =>
    have hsame : viewsOf lineage .emission (pruneViews lineage .ingest t).rows = viewsOf lineage .emission t.rows :=
      viewsOf_pruneViews_of_ne (by decide)
    have hnewest : newestSeqs lineage .emission (pruneViews lineage .ingest t).rows =
        newestSeqs lineage .emission t.rows :=
      congrArg (fun views : List ViewRow => ((views.map ViewRow.viewSeq).insertionSort (· ≥ ·)).take 2) hsame
    rw [viewsOf_pruneViews, keptViews, keptViews, hsame, hnewest]

theorem mem_pruneViews {v : ViewRow} (hv : v ∈ (pruneViews lineage kind t).rows) : v ∈ t.rows :=
  (List.mem_filter.mp hv).1

/-- At most two views stay, and an older one goes only when two newer ones stay. -/
theorem keptViews_newest (h : (rows.map fun v => (v.lineage, v.kind, v.viewSeq)).Nodup) (kind : RecordKind) :
    (keptViews lineage kind rows).length ≤ 2 ∧ ∀ v ∈ viewsOf lineage kind rows, v ∈ keptViews lineage kind rows ∨
      (keptViews lineage kind rows).length = 2 ∧ ∀ w ∈ keptViews lineage kind rows, v.viewSeq < w.viewSeq := by
  have hnodup := nodup_viewsOf h lineage kind
  have hseqs : ∀ n ∈ newestSeqs lineage kind rows, n ∈ (viewsOf lineage kind rows).map ViewRow.viewSeq := by
    intro n hn
    exact (List.perm_insertionSort _ _).mem_iff.mp (List.mem_of_mem_take hn)
  have hsub : (keptViews lineage kind rows).map ViewRow.viewSeq ⊆ newestSeqs lineage kind rows := by
    intro n hn
    obtain ⟨v, hv, rfl⟩ := List.mem_map.mp hn
    simpa using (List.mem_filter.mp hv).2
  have hsup : newestSeqs lineage kind rows ⊆ (keptViews lineage kind rows).map ViewRow.viewSeq := by
    intro n hn
    obtain ⟨v, hv, rfl⟩ := List.mem_map.mp (hseqs n hn)
    exact List.mem_map.mpr ⟨v, List.mem_filter.mpr ⟨hv, by simpa using hn⟩, rfl⟩
  have hkept : ((keptViews lineage kind rows).map ViewRow.viewSeq).Nodup := hnodup.sublist (List.filter_sublist.map _)
  have hnewest : (newestSeqs lineage kind rows).Nodup :=
    ((List.perm_insertionSort _ _).nodup_iff.mpr hnodup).sublist (List.take_sublist _ _)
  have hlength : (keptViews lineage kind rows).length = (newestSeqs lineage kind rows).length := by
    have hle := (hkept.subperm hsub).length_le
    have hge := (hnewest.subperm hsup).length_le
    rw [List.length_map] at hle hge
    omega
  rw [hlength]
  refine ⟨List.length_take_le _ _, fun v hv => ?_⟩
  obtain hin | ⟨htwo, holder⟩ := newest_or_older hnodup 2 (List.mem_map_of_mem hv)
  · exact .inl (List.mem_filter.mpr ⟨hv, decide_eq_true hin⟩)
  · exact .inr ⟨htwo, fun w hw => holder w.viewSeq (hsub (List.mem_map_of_mem hw))⟩

/-! ## Marks -/

/-- An unreliable stamp policy survives the adoption. -/
theorem adoptMark_unreliable (hne : provisional ≠ lineage) {marks : KeyedTable String LineageMark} {mark : LineageMark}
    (hmark : marks.get provisional = some mark ∨ marks.get lineage = some mark)
    (hpolicy : mark.stampPolicy = .stampUnreliable) :
    ∃ kept, (adoptMark provisional lineage marks).get lineage = some kept ∧ kept.stampPolicy = .stampUnreliable := by
  unfold adoptMark
  rw [KeyedTable.get_delete, if_neg (by simpa using hne.symm)]
  cases hold : marks.get provisional with
  | none =>
    obtain hmark | hmark := hmark
    · rw [hold] at hmark
      cases hmark
    · exact ⟨mark, hmark, hpolicy⟩
  | some excluded =>
    cases hown : marks.get lineage with
    | none =>
      obtain hmark | hmark := hmark
      · rw [hold] at hmark
        cases hmark
        refine ⟨{ mark with maxStoreId := none }, ?_, hpolicy⟩
        dsimp only
        rw [KeyedTable.get_insert, if_pos ⟨rfl, hown⟩]
      · rw [hown] at hmark
        cases hmark
    | some own =>
      dsimp only
      rw [KeyedTable.get_modify_self, hown, Option.map_some]
      refine ⟨_, rfl, ?_⟩
      unfold LineageMark.adopt
      apply if_pos
      obtain hmark | hmark := hmark
      · rw [hold] at hmark
        cases hmark
        exact .inr hpolicy
      · rw [hown] at hmark
        cases hmark
        exact .inl hpolicy

/-! ## The merge -/

/-- What stays of a binding whatever lineage it belongs to. -/
def BindingRow.occurrence (r : BindingRow) : Int × Option Int × Bytes × Option String × Classifier.Disposition :=
  (r.occId, r.storeId, r.identityDigest, r.stamp, r.disposition)

/-- The moved bindings follow those of the lineage, in their order. -/
structure Behind (provisional lineage : String) (s s' : Ledger) (φ : Int → Int) : Prop where
  moved : ∀ r ∈ s.bindings.rows, r.lineage = provisional →
    { r with lineage := lineage, ordinal := r.ordinal.map φ } ∈ s'.bindings.rows
  after : ∀ old ∈ s.bindings.occupied provisional, ∀ o ∈ s.bindings.occupied lineage, o < φ old
  order : StrictMonoOn φ {old | old ∈ s.bindings.occupied provisional}

/-- The pairs are store ids of kept bindings, each used once, that look alike. -/
structure Replays (provisional lineage : String) (s : Ledger) (pairs : List (BindingRow × BindingRow)) : Prop where
  source : ∀ p ∈ pairs, p.1 ∈ s.bindings.keptRows provisional
  target : ∀ p ∈ pairs, p.2 ∈ s.bindings.keptRows lineage
  source_once : (pairs.map Prod.fst).Nodup
  target_once : (pairs.map Prod.snd).Nodup
  alike : ∀ p ∈ pairs, Alike p

/-- What adopting the provisional lineage leaves as it is. -/
structure Adopted (provisional lineage : String) (s s' : Ledger) (result : MergeResult) : Prop where
  occurrences : ∀ x, (∃ r ∈ s'.bindings.rows, r.lineage = lineage ∧ r.occurrence = x) ↔
    ∃ r ∈ s.bindings.rows, (r.lineage = provisional ∨ r.lineage = lineage) ∧ r.occurrence = x
  emptied : ∀ r ∈ s'.bindings.rows, r.lineage ≠ provisional
  target : ∀ r ∈ s.bindings.rows, r.lineage = lineage → r ∈ s'.bindings.rows
  behind : ∃ φ, Behind provisional lineage s s' φ
  unreliable : ∀ mark, s.marks.get provisional = some mark ∨ s.marks.get lineage = some mark →
    mark.stampPolicy = .stampUnreliable →
    ∃ kept, s'.marks.get lineage = some kept ∧ kept.stampPolicy = .stampUnreliable
  views : ∀ kind, (viewsOf lineage kind s'.views.rows).length ≤ 2
  union : ∀ w ∈ s'.views.rows, w.lineage = lineage →
    ∃ v ∈ s.views.rows, (v.lineage = provisional ∨ v.lineage = lineage) ∧ w = { v with lineage := lineage }
  newest : ∀ v ∈ s.views.rows, v.lineage = provisional ∨ v.lineage = lineage →
    { v with lineage := lineage } ∈ s'.views.rows ∨
    (viewsOf lineage v.kind s'.views.rows).length = 2 ∧ ∀ w ∈ viewsOf lineage v.kind s'.views.rows,
      v.viewSeq < w.viewSeq
  pairs : ∃ pairs, result.pairs = pairs.map (fun p => (p.1.storeId, p.2.storeId)) ∧ Replays provisional lineage s pairs

theorem replays_pairRows (provisional lineage : String) (s : Ledger) :
    Replays provisional lineage s
    (pairRows (s.bindings.keptRows provisional) (keyedRows (s.bindings.keptRows lineage))) := by
  have hsources := pairRows_sources (s.bindings.keptRows provisional) (keyedRows (s.bindings.keptRows lineage))
  obtain ⟨htargets, hall⟩ := pairRows_targets (s.bindings.keptRows provisional) _
    (queues_keyedRows (s.bindings.nodup_keptRows lineage))
  refine ⟨fun p hp => ?_, fun p hp => ?_, ?_, htargets, fun p hp => (hall p hp).1⟩
  · exact hsources.subset (List.mem_map_of_mem hp)
  · obtain ⟨-, key, hkey⟩ := hall p hp
    exact (List.mem_filter.mp hkey).1
  · exact (s.bindings.nodup_keptRows provisional).sublist hsources

theorem adoptRow_of_eq {φ : Int → Int} {r : BindingRow} (h : r.lineage = provisional) :
    adoptRow provisional lineage φ r = { r with lineage := lineage, ordinal := r.ordinal.map φ } := if_pos h

theorem adoptRow_of_ne {φ : Int → Int} {r : BindingRow} (h : r.lineage ≠ provisional) :
    adoptRow provisional lineage φ r = r := if_neg h

theorem occurrence_adoptRow (φ : Int → Int) (r : BindingRow) :
    (adoptRow provisional lineage φ r).occurrence = r.occurrence := by
  by_cases h : r.lineage = provisional
  · rw [adoptRow_of_eq h]
    rfl
  · rw [adoptRow_of_ne h]

theorem lineage_adoptRow (φ : Int → Int) (r : BindingRow) :
    (adoptRow provisional lineage φ r).lineage = lineage ↔ r.lineage = provisional ∨ r.lineage = lineage := by
  by_cases h : r.lineage = provisional
  · rw [adoptRow_of_eq h]
    simp [h]
  · rw [adoptRow_of_ne h]
    simp [h]

/-- The labels keep the old order, behind the ordinals of the lineage. -/
theorem behind_of_labels {s s' : Ledger} {labels : List Int}
    (hrows : s'.bindings.rows = s.bindings.rows.map
      (adoptRow provisional lineage (renamed ((sortedLabels (s.bindings.occupied provisional)).zip labels))))
    (hcount : labels.length = (sortedLabels (s.bindings.occupied provisional)).length)
    (hincreasing : labels.Pairwise (· < ·))
    (hafter : ∀ label ∈ labels, ∀ m ∈ (s.bindings.occupied lineage).max?, m < label) :
    Behind provisional lineage s s' (renamed ((sortedLabels (s.bindings.occupied provisional)).zip labels)) := by
  have hsorted := sorted_original (s.bindings.occupied provisional)
  have hlabel : ∀ old ∈ s.bindings.occupied provisional, ∃ (k : Nat) (label : Int),
      (sortedLabels (s.bindings.occupied provisional))[k]? = some old ∧ labels[k]? = some label ∧
        renamed ((sortedLabels (s.bindings.occupied provisional)).zip labels) old = label := by
    intro old hold
    obtain ⟨k, hk⟩ := List.mem_iff_getElem?.mp (mem_sortedLabels.mpr hold)
    have hlt : k < labels.length := hcount ▸ (List.getElem?_eq_some_iff.mp hk).1
    exact ⟨k, _, hk, List.getElem?_eq_getElem hlt, renamed_zip (hsorted.imp ne_of_lt) hk (List.getElem?_eq_getElem hlt)⟩
  constructor
  · intro r hr hl
    rw [hrows, List.mem_map]
    exact ⟨r, hr, adoptRow_of_eq hl⟩
  · intro old hold o ho
    obtain ⟨k, label, -, hk, heq⟩ := hlabel old hold
    rw [heq]
    cases hmax : (s.bindings.occupied lineage).max? with
    | none =>
      rw [List.max?_eq_none_iff.mp hmax] at ho
      cases ho
    | some m =>
      exact lt_of_le_of_lt ((List.max?_eq_some_iff.mp hmax).2 o ho) (hafter label (List.mem_of_getElem? hk) m hmax)
  · intro a ha b hb hlt
    obtain ⟨i, la, hi, hla, hra⟩ := hlabel a ha
    obtain ⟨j, lb, hj, hlb, hrb⟩ := hlabel b hb
    rw [hra, hrb]
    have hij : i < j := by
      rw [← bisectLeft_getElem hsorted hi, ← bisectLeft_getElem hsorted hj]
      exact bisectLeft_strict hsorted (List.mem_of_getElem? hi) hlt
    obtain ⟨hi', rfl⟩ := List.getElem?_eq_some_iff.mp hla
    obtain ⟨hj', rfl⟩ := List.getElem?_eq_some_iff.mp hlb
    exact List.pairwise_iff_getElem.mp hincreasing i j hi' hj' hij

theorem raised_ok {α : Type} {x : Except LedgerError α} {a : α} (h : raised x = .ok a) : x = .ok a := by
  cases x with
  | ok b =>
    cases h
    rfl
  | error e => cases h

theorem conflicting_ok {α : Type} {x : Option α} {a : α} (h : conflicting x = .ok a) : x = some a := by
  cases x with
  | some b =>
    cases h
    rfl
  | none => cases h

/-- The statements of a merge that does not raise, on the tables that it changes. -/
structure MergeSteps (provisional lineage : String) (s s' : Ledger) (result : MergeResult) : Prop where
  bindings : ∃ labels : List Int, ∃ moved : BindingTable,
    labels.length = (sortedLabels (s.bindings.occupied provisional)).length ∧ labels.Pairwise (· < ·) ∧
    (∀ label ∈ labels, ∀ m ∈ (s.bindings.occupied lineage).max?, m < label) ∧
    moveBindings provisional lineage
      ((sortedLabels (s.bindings.occupied provisional)).zip (labels.map some)) s.bindings = .ok moved ∧
    (moved.update fun r => (rekey provisional lineage r.lineage, r.ordinal)) = .ok s'.bindings
  views : ∃ views, (s.views.update fun v => { v with lineage := rekey provisional lineage v.lineage }) = some views ∧
    s'.views = pruneViews lineage .emission (pruneViews lineage .ingest views)
  marks : s'.marks = adoptMark provisional lineage s.marks
  pairs : result.pairs = (pairRows (s.bindings.keptRows provisional) (keyedRows (s.bindings.keptRows lineage))).map
    fun p => (p.1.storeId, p.2.storeId)

/-- A merge that returns has made these statements. -/
theorem mergeProvisional_steps {owned : Bool} {s s' : Ledger} {result : MergeResult}
    (h : mergeProvisional owned provisional lineage s = .ok (s', result)) :
      MergeSteps provisional lineage s s' result := by
  unfold mergeProvisional at h
  by_cases howned : ¬ owned = true
  · rw [if_pos howned] at h
    cases h
  · rw [if_neg howned] at h
    dsimp only at h
    rw [bind_ok] at h
    obtain ⟨⟨new, respace⟩, hplan, h⟩ := h
    dsimp only at h
    by_cases hrespace : respace ≠ []
    · rw [if_pos hrespace] at h
      cases h
    · rw [if_neg hrespace] at h
      obtain rfl : respace = [] := not_not.mp hrespace
      simp only [bind_ok] at h
      obtain ⟨moved, hmoved, bindings, hbindings, observations, hobservations, emissions,
          hemissions, views, hviews, h⟩ := h
      cases h
      obtain ⟨labels, rfl, hcount, hincreasing, hafter⟩ := plan_behind (raised_ok hplan)
      exact ⟨⟨labels, moved, hcount, hincreasing, hafter, hmoved, hbindings⟩,
        ⟨views, conflicting_ok hviews, rfl⟩, rfl, rfl⟩

variable {owned : Bool} {s s' : Ledger} {result : MergeResult}

/-- A merge that does not raise keeps the bindings, marks and newest views of two lineages. -/
theorem mergeProvisional_adopted (hne : provisional ≠ lineage)
    (h : mergeProvisional owned provisional lineage s = .ok (s', result)) :
      Adopted provisional lineage s s' result := by
  obtain ⟨⟨labels, moved, hcount, hincreasing, hafter, hmoved, hbindings⟩, ⟨views, hviews, hpruned⟩, hmarks, hpairs⟩ :=
    mergeProvisional_steps h
  have hrows := rows_adopted hne hcount hmoved hbindings
  have hviewRows := KeyedRows.rows_update hviews
  -- A view of either lineage, re-keyed.
  have hunion : ∀ v ∈ s.views.rows, v.lineage = provisional ∨ v.lineage = lineage →
      { v with lineage := lineage } ∈ views.rows := by
    intro v hv hl
    rw [hviewRows, List.mem_map]
    refine ⟨v, hv, ?_⟩
    obtain hl | hl := hl <;> simp [rekey, hl]
  have hkept : ∀ kind, viewsOf lineage kind s'.views.rows = keptViews lineage kind views.rows := by
    intro kind
    rw [hpruned]
    exact viewsOf_pruned kind
  constructor
  case occurrences =>
    intro x
    rw [hrows]
    constructor
    · rintro ⟨r', hr', hl, hx⟩
      obtain ⟨r, hr, rfl⟩ := List.mem_map.mp hr'
      exact ⟨r, hr, (lineage_adoptRow _ r).mp hl, (occurrence_adoptRow _ r).symm.trans hx⟩
    · rintro ⟨r, hr, hl, hx⟩
      exact ⟨_, List.mem_map_of_mem hr, (lineage_adoptRow _ r).mpr hl, (occurrence_adoptRow _ r).trans hx⟩
  case emptied =>
    intro r' hr'
    rw [hrows] at hr'
    obtain ⟨r, -, rfl⟩ := List.mem_map.mp hr'
    by_cases hl : r.lineage = provisional
    · rw [adoptRow_of_eq hl]
      exact hne.symm
    · rwa [adoptRow_of_ne hl]
  case target =>
    intro r hr hl
    rw [hrows, List.mem_map]
    exact ⟨r, hr, adoptRow_of_ne (hl ▸ hne.symm)⟩
  case behind => exact ⟨_, behind_of_labels hrows hcount hincreasing hafter⟩
  case unreliable =>
    intro mark hmark hpolicy
    rw [hmarks]
    exact adoptMark_unreliable hne hmark hpolicy
  case views =>
    intro kind
    rw [hkept kind]
    exact (keptViews_newest views.unique kind).1
  case union =>
    intro w hw hl
    rw [hpruned] at hw
    have hin := mem_pruneViews (mem_pruneViews hw)
    rw [hviewRows] at hin
    obtain ⟨v, hv, rfl⟩ := List.mem_map.mp hin
    refine ⟨v, hv, ?_, congrArg (fun l => { v with lineage := l }) hl⟩
    by_cases hp : v.lineage = provisional
    · exact .inl hp
    · right
      simpa [rekey, hp] using hl
  case newest =>
    intro v hv hl
    have hview : { v with lineage := lineage } ∈ viewsOf lineage v.kind views.rows :=
      mem_viewsOf.mpr ⟨hunion v hv hl, rfl, rfl⟩
    rw [hkept v.kind]
    obtain hstays | holder := (keptViews_newest views.unique v.kind).2 _ hview
    · left
      rw [← hkept v.kind] at hstays
      exact (mem_viewsOf.mp hstays).1
    · exact .inr holder
  case pairs => exact ⟨_, hpairs, replays_pairRows provisional lineage s⟩

theorem observations_nodup : (([] : List ObservationRow).map fun o => (o.occId, o.kind, o.stamp)).Nodup := by decide

theorem emissions_nodup :
    (([] : List EmissionRow).map fun e => (e.lineage, e.viewSeq, e.outputIndex)).Nodup := by decide

/-- A binding of the session, and a stored row of its provisional lineage that shares its ordinal with a part. -/
def resumed : Ledger where
  bindings :=
    { rows :=
        [⟨1, "session", some 5, some 10, [1], some "t", .stored⟩,
          ⟨2, "provisional:s", some 3, some 11, [1], some "t", .stored⟩,
          ⟨3, "provisional:s", some 3, some 11, [2], none, .splitPart⟩]
      key := by decide
      unique := by decide }
  observations := ⟨[], observations_nodup⟩
  emissions := ⟨[], emissions_nodup⟩
  views := ⟨[⟨"session", 1, .ingest, none, [], []⟩, ⟨"session", 2, .ingest, none, [], []⟩,
    ⟨"provisional:s", 3, .ingest, none, [], []⟩], by decide⟩
  marks := ⟨[("provisional:s", { stampPolicy := .stampUnreliable })], by decide⟩
  ledgerMeta := .empty
  messages := .empty

theorem plan_resumed : planOrdinals [5] [⟨some 5, none, none⟩] = .ok ([some (5 + ordinalStep)], []) := by
  have hsorted : sortedLabels [5] = [5] := List.mergeSort_of_pairwise (by decide)
  have hgrouping : [(⟨some 5, none, none⟩ : Placement)].foldlM (groupPlacement (sortedLabels [5])) {} =
      .ok ⟨5, maxOrdinal + 1, 1, [1]⟩ := by
    rw [hsorted]
    rfl
  have hgaps : ([1].dedup.mergeSort (· ≤ ·) : List Nat) = [1] := List.mergeSort_of_pairwise (by decide)
  rw [planOrdinals_eq (by decide) hgrouping, hsorted, hgaps]
  rfl

theorem mergeProvisional_adopted_resumed : ∃ s' result,
    mergeProvisional true "provisional:s" "session" resumed = .ok (s', result) ∧
      Adopted "provisional:s" "session" resumed s' result := by
  have holds : sortedLabels (resumed.bindings.occupied "provisional:s") = [3] := List.mergeSort_of_pairwise (by decide)
  have hmaximum : (resumed.bindings.occupied "session").max? = some 5 := by decide
  have hok : (mergeProvisional true "provisional:s" "session" resumed).isOk = true := by
    unfold mergeProvisional
    dsimp only
    rw [holds, hmaximum]
    change (do
      let plan ← raised (planOrdinals [5] [⟨some 5, none, none⟩])
      _ : Except WriteError _).isOk = true
    rw [plan_resumed]
    rfl
  obtain ⟨⟨s', result⟩, h⟩ := exists_ok hok
  exact ⟨s', result, h, mergeProvisional_adopted (by decide) h⟩

/-! ## Placements one after the other -/

/-- The labels of a lineage after rows are placed in it: those of the old rows as they are renamed,
then those of the new rows. -/
def place (existing : List Int) (placements : List Placement) : Except LedgerError (List Int) := do
  let (labels, moved) ← planOrdinals existing placements
  return existing.map (renamed moved) ++ labels.filterMap id

/-- The rows of the first labels come first among the later ones and stand in the order they had; no
two rows share a label. -/
def KeepsOrder (existing later : List Int) : Prop :=
  later.Nodup ∧ ∃ f : Int → Int, (∀ v ∈ existing, ∀ w ∈ existing, v < w → f v < f w) ∧ existing.map f <+: later

theorem KeepsOrder.place {existing next later : List Int} {placements : List Placement} (h : KeepsOrder existing next)
    (hplace : place next placements = .ok later) : KeepsOrder existing later := by
  obtain ⟨hnodup, f, hf, hkept⟩ := h
  obtain ⟨plan, hplan, heq⟩ := bind_ok.mp hplace
  obtain ⟨hrange, haccepted⟩ := planOrdinals_accepted hplan
  obtain hexhausted | ⟨labels, moved, hok, hspec⟩ := planOrdinals_spec hrange haccepted
  · cases hplan.symm.trans hexhausted
  · cases hplan.symm.trans hok
    cases heq
    have hlabels : (labels.map some).filterMap id = labels := by simp [List.filterMap_map]
    rw [hlabels]
    constructor
    · rw [List.nodup_append]
      refine ⟨hnodup.map_on fun v hv w hw hvw => ?_, hspec.increasing.imp fun hlt => ne_of_lt hlt, ?_⟩
      · by_contra hne
        rcases lt_or_gt_of_ne hne with hlt | hlt
        · exact (hspec.order v hv w hw hlt).ne hvw
        · exact (hspec.order w hw v hv hlt).ne' hvw
      · rintro v hv label hlabel rfl
        obtain ⟨old, hold, hrenamed⟩ := List.mem_map.mp hv
        exact hspec.distinct v hlabel old hold hrenamed.symm
    · have hmem : ∀ v ∈ existing, f v ∈ next := fun v hv => hkept.subset (List.mem_map_of_mem hv)
      refine ⟨renamed moved ∘ f, fun v hv w hw hvw => hspec.order _ (hmem v hv) _ (hmem w hw) (hf v hv w hw hvw), ?_⟩
      rw [← List.map_map]
      exact (hkept.map _).trans (List.prefix_append _ _)

/-- No sequence of placements and re-spacings changes the order of rows that are there. -/
theorem placed_order_kept {existing later : List Int} (runs : List (List Placement)) (hnodup : existing.Nodup)
    (h : runs.foldlM place existing = .ok later) : KeepsOrder existing later :=
  foldlM_invariant (fun _ _ _ _ hkept hplace => hkept.place hplace)
    ⟨hnodup, id, fun _ _ _ _ hvw => hvw, by rw [List.map_id]⟩ h

/-- The label after the new row moves. -/
theorem place_between : place [1, 2] [⟨some 1, some 2, none⟩] = .ok [1, 2097153, 1048577] := by
  rw [place, plan_between]
  rfl

theorem placed_order_kept_between : KeepsOrder [1, 2] [1, 2097153, 1048577] :=
  placed_order_kept [[⟨some 1, some 2, none⟩]] (by decide) (bind_ok.mpr ⟨_, place_between, rfl⟩)

end IngestLedger
