import LcmX.Reservation

/-!
# Reserved rows have their own occurrences

A seating gives every reserved row an occurrence that it may take, each to one row. The first
two passes are matchings of disjoint rows and occurrences; a row of the third takes the seat
of a stamped row, which moves to a free one.
-/
namespace RecognitionMatching

open Bipartite

variable {S F O ρ : Type} [DecidableEq S] [DecidableEq F] [DecidableEq O]

section

variable (stored : Stored S F ρ) (pool : List ρ) (occurrences : List (O × (Option S × F)))

/-- A row takes an occurrence of one of its forms, and a stamped row only one with its stamp or an alias of it. -/
def MayTake (sid : Int) (o : O) : Prop :=
  ∃ stamp form, (o, (stamp, form)) ∈ occurrences ∧ ∃ row ∈ pool, stored.storeId row = sid ∧ form ∈ stored.formsOf row ∧
    (stored.observedAt row ≠ none → stamp = stored.observedAt row ∨ stamp ∈ stored.aliases sid)

/-- The rows with a seat, and the occurrences that are taken. -/
structure Seating (reserved : Finset Int) (used : Finset O) (seat : Int → Option O) : Prop where
  rows : ∀ sid, (seat sid).isSome ↔ sid ∈ reserved
  taken : ∀ o, o ∈ used ↔ ∃ sid, seat sid = some o
  single : ∀ sid sid' o, seat sid = some o → seat sid' = some o → sid = sid'
  allowed : ∀ sid o, seat sid = some o → MayTake stored pool occurrences sid o

end

variable {stored : Stored S F ρ} {pool : List ρ} {occurrences : List (O × (Option S × F))}

omit [DecidableEq S] [DecidableEq F] in
theorem mem_keysOf {row : ρ} {stamp : Option S} {form : F} : (stamp, form) ∈ keysOf stored row ↔
    (stamp = stored.observedAt row ∨ stamp ∈ stored.aliases (stored.storeId row)) ∧ form ∈ stored.formsOf row := by
  simp only [keysOf, List.mem_flatMap, List.mem_cons, List.mem_map, Prod.mk.injEq]
  constructor
  · rintro ⟨stamp', hstamp, form', hform, rfl, rfl⟩
    exact ⟨hstamp, hform⟩
  · rintro ⟨hstamp, hform⟩
    exact ⟨stamp, hstamp, form, hform, rfl, rfl⟩

omit [DecidableEq S] [DecidableEq F] [DecidableEq O] in
theorem mayTake_of_key {row : ρ} (hrow : row ∈ pool) {key : Option S × F} (hkey : key ∈ keysOf stored row) {o : O}
    (ho : (o, key) ∈ occurrences) : MayTake stored pool occurrences (stored.storeId row) o := by
  obtain ⟨stamp, form⟩ := key
  obtain ⟨hstamp, hform⟩ := mem_keysOf.mp hkey
  exact ⟨stamp, form, ho, row, hrow, rfl, hform, fun _ => hstamp⟩

omit [DecidableEq S] [DecidableEq F] [DecidableEq O] in
theorem mayTake_of_null {row : ρ} (hrow : row ∈ pool) (hnull : stored.observedAt row = none)
    {stamp : Option S} {form : F}
    (hform : form ∈ stored.formsOf row) {o : O} (ho : (o, (stamp, form)) ∈ occurrences) :
    MayTake stored pool occurrences (stored.storeId row) o :=
  ⟨stamp, form, ho, row, hrow, rfl, hform, fun h => absurd hnull h⟩

/-! ## Seating -/

omit [DecidableEq S] [DecidableEq F] in
/-- A seated row moves to a free occurrence, and a free row takes its seat. -/
theorem Seating.swap {reserved : Finset Int} {used : Finset O} {seat : Int → Option O}
    (h : Seating stored pool occurrences reserved used seat)
    {id sid : Int} {o o' : O} (hid : id ∉ reserved) (ho' : o' ∉ used) (hseat : seat sid = some o)
    (hmove : MayTake stored pool occurrences sid o') (hmay : MayTake stored pool occurrences id o) :
    Seating stored pool occurrences (insert id reserved) (insert o' used)
      (Function.update (Function.update seat sid (some o')) id (some o)) := by
  have hsid : sid ∈ reserved := (h.rows sid).mp (by rw [hseat]; rfl)
  have hne : sid ≠ id := fun he => hid (he ▸ hsid)
  have ho : o ∈ used := (h.taken o).mpr ⟨sid, hseat⟩
  have hother : ∀ a x, Function.update (Function.update seat sid (some o')) id (some o) a = some x ↔
      (a = id ∧ x = o) ∨ (a = sid ∧ x = o') ∨ (a ≠ id ∧ a ≠ sid ∧ seat a = some x) := by
    intro a x
    by_cases ha : a = id
    · subst ha
      simp [hne.symm, eq_comm]
    · by_cases hs : a = sid
      · subst hs
        simp [ha, eq_comm]
      · simp [ha, hs]
  have hnew : seat id = none := by
    cases hx : seat id with
    | none => rfl
    | some x => exact absurd ((h.rows id).mp (by rw [hx]; rfl)) hid
  have hfresh : ∀ a, seat a ≠ some o' := fun a ha => ho' ((h.taken o').mpr ⟨a, ha⟩)
  refine ⟨fun a => ?_, fun x => ?_, fun a b x ha hb => ?_, fun a x hx => ?_⟩
  · by_cases ha : a = id
    · subst ha
      simp
    · by_cases hs : a = sid
      · subst hs
        simp [ha, hsid]
      · simpa [ha, hs] using h.rows a
  · rw [Finset.mem_insert, h.taken x]
    constructor
    · rintro (rfl | ⟨a, ha⟩)
      · exact ⟨sid, (hother sid x).mpr (.inr (.inl ⟨rfl, rfl⟩))⟩
      · by_cases hs : a = sid
        · subst hs
          rw [hseat] at ha
          exact ⟨id, (hother id x).mpr (.inl ⟨rfl, (Option.some.inj ha).symm⟩)⟩
        · refine ⟨a, (hother a x).mpr (.inr (.inr ⟨?_, hs, ha⟩))⟩
          rintro rfl
          rw [hnew] at ha
          cases ha
    · rintro ⟨a, ha⟩
      rcases (hother a x).mp ha with ⟨-, rfl⟩ | ⟨-, rfl⟩ | ⟨-, -, ha⟩
      · exact .inr ⟨sid, hseat⟩
      · exact .inl rfl
      · exact .inr ⟨a, ha⟩
  · rcases (hother a x).mp ha with ⟨hida, hxa⟩ | ⟨hsa, hxa⟩ | ⟨-, hsa, hseata⟩
    · rcases (hother b x).mp hb with ⟨hidb, -⟩ | ⟨-, hxb⟩ | ⟨-, hsb, hseatb⟩
      · exact hida.trans hidb.symm
      · exact absurd (hxa.symm.trans hxb ▸ ho) ho'
      · exact absurd (h.single b sid o (hxa ▸ hseatb) hseat) hsb
    · rcases (hother b x).mp hb with ⟨-, hxb⟩ | ⟨hsb, -⟩ | ⟨-, -, hseatb⟩
      · exact absurd (hxb.symm.trans hxa ▸ ho) ho'
      · exact hsa.trans hsb.symm
      · exact absurd (hxa ▸ hseatb) (hfresh b)
    · rcases (hother b x).mp hb with ⟨-, hxb⟩ | ⟨-, hxb⟩ | ⟨-, -, hseatb⟩
      · exact absurd (h.single a sid o (hxb ▸ hseata) hseat) hsa
      · exact absurd (hxb ▸ hseata) (hfresh a)
      · exact h.single a b x hseata hseatb
  · rcases (hother a x).mp hx with ⟨rfl, rfl⟩ | ⟨rfl, rfl⟩ | ⟨-, -, hx⟩
    · exact hmay
    · exact hmove
    · exact h.allowed a x hx

/-! ## The third pass -/

/-- The open occurrences of a key. -/
def openCount (occurrences : List (O × (Option S × F))) (used : Finset O) (k : Option S × F) : Nat :=
  (occurrences.filter fun x => x.2 = k ∧ x.1 ∉ used).length

theorem openCount_pos {used : Finset O} {k : Option S × F} (h : 0 < openCount occurrences used k) :
    ∃ o, (o, k) ∈ occurrences ∧ o ∉ used := by
  obtain ⟨x, hx⟩ := List.exists_mem_of_length_pos h
  obtain ⟨hmem, hfacts⟩ := List.mem_filter.mp hx
  obtain ⟨rfl, hfree⟩ := of_decide_eq_true hfacts
  exact ⟨x.1, hmem, hfree⟩

theorem openCount_insert (hlabels : (occurrences.map Prod.fst).Nodup) {used : Finset O} {o : O} {target : Option S × F}
    (ho : (o, target) ∈ occurrences) (hfree : o ∉ used) (k : Option S × F) :
    openCount occurrences used k = openCount occurrences (insert o used) k + if k = target then 1 else 0 := by
  obtain ⟨before, after, rfl⟩ := List.append_of_mem ho
  rw [List.map_append, List.map_cons, List.nodup_append, List.nodup_cons] at hlabels
  obtain ⟨-, ⟨hafter, -⟩, hbefore⟩ := hlabels
  have hother : ∀ part : List (O × (Option S × F)), o ∉ part.map Prod.fst →
      part.filter (fun x => x.2 = k ∧ x.1 ∉ insert o used) = part.filter fun x => x.2 = k ∧ x.1 ∉ used := by
    intro part hpart
    apply List.filter_congr
    intro x hx
    have hne : x.1 ≠ o := fun he => hpart (he ▸ List.mem_map_of_mem hx)
    simp [hne]
  have hfront : o ∉ before.map Prod.fst := fun h => hbefore o h o (by simp) rfl
  simp only [openCount, List.filter_append, List.length_append, hother before hfront,
    List.filter_cons, hother after hafter]
  by_cases hk : k = target
  · subst hk
    simp [hfree]
    omega
  · have hk' : ¬ target = k := fun h => hk h.symm
    simp [hk, hk']

/-- The state of the third pass, over the seats that its rows have. -/
structure Routed (stored : Stored S F ρ) (pool : List ρ) (occurrences : List (O × (Option S × F))) (base : Finset Int)
    (st : Reroute S F) (used : Finset O) (seat : Int → Option O) : Prop where
  seating : Seating stored pool occurrences (base ∪ st.out) used seat
  free : ∀ k, st.free k ≤ openCount occurrences used k
  current : ∀ sid k, st.current sid = some k → ∃ o, seat sid = some o ∧ (o, k) ∈ occurrences
  queued : ∀ form, ∀ sid ∈ st.holders form, ∃ stamp, st.current sid = some (stamp, form)
  once : ∀ form, (st.holders form).Nodup

omit [DecidableEq S] [DecidableEq F] in
theorem rowOf_spec {sid : Int} {row : ρ} (h : rowOf stored pool sid = some row) :
    row ∈ pool ∧ stored.storeId row = sid := by
  have hfound := List.find?_some h
  have hmem := List.mem_of_find?_eq_some h
  exact ⟨List.mem_reverse.mp hmem, of_decide_eq_true hfound⟩

/-- A target is a key of a stored row, and has a seat free. -/
theorem targetOf_spec {repr : Reprs S F} {st : Reroute S F} {sid : Int} {target : Option S × F}
    (h : targetOf stored repr pool st sid = some target) :
    (∃ row ∈ pool, stored.storeId row = sid ∧ target ∈ keysOf stored row) ∧ 0 < st.free target := by
  rw [targetOf] at h
  cases hrow : rowOf stored pool sid with
  | none =>
    rw [hrow] at h
    cases h
  | some row =>
    rw [hrow] at h
    obtain ⟨hmem, hid⟩ := rowOf_spec hrow
    have hfound := List.find?_some h
    have hkey := List.mem_of_find?_eq_some h
    rw [sortedKeys, List.mem_insertionSort, mem_addKeys] at hkey
    exact ⟨⟨row, hmem, hid, hkey.resolve_left List.not_mem_nil⟩, (of_decide_eq_true hfound).2⟩

/-- A NULL row, still free, and one of its forms. -/
structure Waits (stored : Stored S F ρ) (pool : List ρ) (reserved : Finset Int) (id : Int) (form : F) : Prop where
  row : ∃ row ∈ pool, stored.storeId row = id ∧ stored.observedAt row = none ∧ form ∈ stored.formsOf row
  free : id ∉ reserved

/-- The holder moves to its target, and the NULL row takes its seat. -/
theorem Routed.reseat (hlabels : (occurrences.map Prod.fst).Nodup) {base : Finset Int}
    {st : Reroute S F} {used : Finset O}
    {seat : Int → Option O} {id sid : Int} {form : F} {queue : List Int} {target : Option S × F}
    (h : Routed stored pool occurrences base
      { st with holders := Function.update st.holders form (sid :: queue) } used seat)
    (hwaits : Waits stored pool (base ∪ st.out) id form)
      (hkey : ∃ row ∈ pool, stored.storeId row = sid ∧ target ∈ keysOf stored row)
    (hfree : 0 < st.free target) :
    ∃ used' seat', Routed stored pool occurrences base
      (reseat id sid target { st with holders := Function.update st.holders form queue }) used' seat' := by
  obtain ⟨stamp, hcurrent⟩ := h.queued form sid (by simp)
  obtain ⟨o, hseat, ho⟩ := h.current sid _ hcurrent
  obtain ⟨o', ho', hunused⟩ := openCount_pos (Nat.lt_of_lt_of_le hfree (h.free target))
  obtain ⟨row, hrow, rfl, hrowKey⟩ := hkey
  obtain ⟨null, hnull, rfl, hstamp, hform⟩ := hwaits.row
  have hmove := mayTake_of_key hrow hrowKey ho'
  have hmay := mayTake_of_null hnull hstamp hform ho
  have hsid : stored.storeId row ≠ stored.storeId null :=
    fun he => hwaits.free (he ▸ (h.seating.rows _).mp (by rw [hseat]; rfl))
  have honce : stored.storeId row ∉ queue ∧ queue.Nodup := by simpa using h.once form
  -- a holder that stays in a queue is another row, and keeps its key
  have hstay : ∀ f, ∀ a ∈ Function.update st.holders form queue f, a ≠ stored.storeId row ∧ ∃ stamp,
      st.current a = some (stamp, f) := by
    intro f a ha
    by_cases hf : f = form
    · subst hf
      rw [Function.update_self] at ha
      exact ⟨fun he => honce.1 (he ▸ ha), h.queued f a (by simp [ha])⟩
    · rw [Function.update_of_ne hf] at ha
      obtain ⟨stamp', hcur⟩ : ∃ stamp, st.current a = some (stamp, f) := h.queued f a (by simpa [hf] using ha)
      refine ⟨fun he => hf ?_, stamp', hcur⟩
      have hsame : some (stamp', f) = some (stamp, form) := hcur.symm.trans (he ▸ hcurrent)
      exact (Prod.mk.inj (Option.some.inj hsame)).2
  have hnodup : ∀ f, (Function.update st.holders form queue f).Nodup := by
    intro f
    by_cases hf : f = form
    · subst hf
      rw [Function.update_self]
      exact honce.2
    · have hold : (Function.update st.holders form (stored.storeId row :: queue) f).Nodup := h.once f
      rwa [Function.update_of_ne hf] at hold ⊢
  refine ⟨insert o' used, Function.update (Function.update seat (stored.storeId row) (some o'))
    (stored.storeId null) (some o), ?_, ?_, ?_, ?_, ?_⟩
  · rw [show base ∪ (RecognitionMatching.reseat (stored.storeId null) (stored.storeId row) target
        { st with holders := Function.update st.holders form queue }).out = insert
          (stored.storeId null) (base ∪ st.out) from
      Finset.union_insert _ _ _]
    exact h.seating.swap hwaits.free hunused hseat hmove hmay
  · intro k
    change Function.update st.free target (st.free target - 1) k ≤ _
    have hcount := openCount_insert hlabels ho' hunused k
    have hold : st.free k ≤ _ := h.free k
    by_cases hk : k = target
    · subst hk
      rw [Function.update_self]
      rw [if_pos rfl] at hcount
      omega
    · rw [Function.update_of_ne hk]
      rw [if_neg hk] at hcount
      omega
  · intro a k ha
    change Function.update st.current (stored.storeId row) (some target) a = some k at ha
    by_cases hs : a = stored.storeId row
    · subst hs
      rw [Function.update_self] at ha
      exact ⟨o', by simp [hsid], Option.some.inj ha ▸ ho'⟩
    · rw [Function.update_of_ne hs] at ha
      obtain ⟨x, hx, hmem⟩ := h.current a k ha
      have hid : a ≠ stored.storeId null := fun he => hwaits.free (he ▸ (h.seating.rows _).mp (by rw [hx]; rfl))
      exact ⟨x, by simp [hs, hid, hx], hmem⟩
  · intro f a ha
    change a ∈ Function.update (Function.update st.holders form queue) target.2
      (Function.update st.holders form queue target.2 ++ [stored.storeId row]) f at ha
    change ∃ stamp, Function.update st.current (stored.storeId row) (some target) a = some (stamp, f)
    have hkept : a ∈ Function.update st.holders form queue f → ∃ stamp,
        Function.update st.current (stored.storeId row) (some target) a = some (stamp, f) := by
      intro hmem
      obtain ⟨hne, hcur⟩ := hstay f a hmem
      rwa [Function.update_of_ne hne]
    by_cases hf : f = target.2
    · subst hf
      rw [Function.update_self, List.mem_append, List.mem_singleton] at ha
      rcases ha with ha | rfl
      · exact hkept ha
      · exact ⟨target.1, by rw [Function.update_self]⟩
    · rw [Function.update_of_ne hf] at ha
      exact hkept ha
  · intro f
    change (Function.update (Function.update st.holders form queue) target.2
      (Function.update st.holders form queue target.2 ++ [stored.storeId row]) f).Nodup
    by_cases hf : f = target.2
    · subst hf
      rw [Function.update_self]
      refine List.nodup_append.mpr ⟨hnodup _, List.nodup_singleton _, fun a ha b hb => ?_⟩
      rw [List.mem_singleton] at hb
      exact hb ▸ (hstay _ a ha).1
    · rw [Function.update_of_ne hf]
      exact hnodup f

/-- What moves no row and seats none keeps the seats. -/
theorem Routed.drop {base : Finset Int} {st : Reroute S F} {used : Finset O} {seat : Int → Option O}
    {form : F} {queue queue' : List Int}
    (h : Routed stored pool occurrences base { st with holders := Function.update st.holders form queue } used seat)
    (hsub : queue'.Sublist queue) (work : Nat) :
    Routed stored pool occurrences base
      { st with holders := Function.update st.holders form queue', work := work } used seat := by
  have hrest : ∀ f, (Function.update st.holders form queue' f).Sublist (Function.update st.holders form queue f) := by
    intro f
    by_cases hf : f = form
    · subst hf
      simpa using hsub
    · simp [hf]
  exact ⟨h.seating, h.free, h.current, fun f a ha => h.queued f a ((hrest f).subset ha),
    fun f => (hrest f).nodup (h.once f)⟩

theorem tryHolders_routed (hlabels : (occurrences.map Prod.fst).Nodup) {repr : Reprs S F}
    {base : Finset Int} (budget : Nat) {id : Int} {form : F}
    {used : Finset O} {seat : Int → Option O} (queue : List Int) : ∀ st : Reroute S F,
      Routed stored pool occurrences base { st with holders := Function.update st.holders form queue } used seat →
      Waits stored pool (base ∪ st.out) id form →
      ∃ used' seat', Routed stored pool occurrences base
        (tryHolders stored repr pool budget id form queue st) used' seat' := by
  induction queue with
  | nil => exact fun st h _ => ⟨used, seat, h⟩
  | cons sid queue ih =>
    intro st h hwaits
    rw [tryHolders]
    split
    · simp only
      have hnext := h.drop (List.sublist_cons_self sid queue) (st.work + 1)
      cases htarget : targetOf stored repr pool { st with work := st.work + 1 } sid with
      | none => exact ih _ hnext hwaits
      | some target =>
        obtain ⟨hkey, hfree⟩ := targetOf_spec htarget
        have hmoved := h.drop (List.Sublist.refl _) (st.work + 1)
        exact @Routed.reseat _ _ _ _ _ _ _ stored pool occurrences hlabels base
          { st with work := st.work + 1 } used seat id sid form queue target
          hmoved hwaits hkey hfree
    · exact ⟨used, seat, h⟩

theorem routeForms_routed (hlabels : (occurrences.map Prod.fst).Nodup) {repr : Reprs S F}
    {base : Finset Int} (budget : Nat) {row : ρ}
    (hrow : row ∈ pool) (hnull : stored.observedAt row = none) (hbase : stored.storeId row ∉ base) (forms : List F) :
    ∀ (st : Reroute S F) (used : Finset O) (seat : Int → Option O), (∀ form ∈ forms, form ∈ stored.formsOf row) →
      Routed stored pool occurrences base st used seat →
      ∃ used' seat', Routed stored pool occurrences base
      (routeForms stored repr pool budget (stored.storeId row) forms st) used' seat' := by
  induction forms with
  | nil => exact fun st used seat _ h => ⟨used, seat, h⟩
  | cons form forms ih =>
    intro st used seat hforms h
    have hnext : ∃ used' seat', Routed stored pool occurrences base (if stored.storeId row ∈ st.out then st
        else tryHolders stored repr pool budget (stored.storeId row) form (st.holders form) st) used' seat' := by
      split
      · exact ⟨used, seat, h⟩
      · rename_i hout
        have hwaits : Waits stored pool (base ∪ st.out) (stored.storeId row) form :=
          ⟨⟨row, hrow, rfl, hnull, hforms form List.mem_cons_self⟩, by simp [hbase, hout]⟩
        exact tryHolders_routed hlabels budget (st.holders form) st (by rw [Function.update_eq_self]; exact h) hwaits
    rw [routeForms]
    obtain ⟨used', seat', hrouted⟩ := hnext
    generalize (if stored.storeId row ∈ st.out then st
      else tryHolders stored repr pool budget (stored.storeId row) form (st.holders form) st) = st' at hrouted ⊢
    split
    · exact ⟨used', seat', hrouted⟩
    · exact ih st' used' seat' (fun f hf => hforms f (List.mem_cons_of_mem _ hf)) hrouted

theorem routeRows_routed (hlabels : (occurrences.map Prod.fst).Nodup) {repr : Reprs S F}
    {base : Finset Int} (budget : Nat) (rest : List ρ) :
    ∀ (st : Reroute S F) (used : Finset O) (seat : Int → Option O),
      (∀ row ∈ rest, row ∈ pool ∧ stored.observedAt row = none ∧ stored.storeId row ∉ base) →
      Routed stored pool occurrences base st used seat →
      ∃ used' seat', Routed stored pool occurrences base (routeRows stored repr pool budget rest st) used' seat' := by
  induction rest with
  | nil => exact fun st used seat _ h => ⟨used, seat, h⟩
  | cons row rest ih =>
    intro st used seat hrest h
    obtain ⟨hrow, hnull, hbase⟩ := hrest row List.mem_cons_self
    have hforms : ∀ form ∈ sortedForms stored repr row, form ∈ stored.formsOf row :=
      fun form hform => (List.mem_insertionSort _).mp hform
    obtain ⟨used', seat', hrouted⟩ := routeForms_routed hlabels budget hrow hnull hbase _ st used seat hforms h
    rw [routeRows]
    split
    · exact ⟨used', seat', hrouted⟩
    · exact ih _ used' seat' (fun r hr => hrest r (List.mem_cons_of_mem _ hr)) hrouted

/-! ## The first two passes -/

theorem lookup_iff {A B : Type} [DecidableEq A] {m : List (A × B)} (hnodup : (m.map Prod.fst).Nodup) (a : A) (b : B) :
    m.lookup a = some b ↔ (a, b) ∈ m := by
  rw [List.lookup_eq_some_iff]
  constructor
  · rintro ⟨before, after, rfl, -⟩
    simp
  · intro h
    obtain ⟨before, after, rfl⟩ := List.append_of_mem h
    refine ⟨before, after, rfl, fun p hp => ?_⟩
    rw [List.map_append, List.map_cons, List.nodup_append] at hnodup
    have hne : p.1 ≠ a := fun he => hnodup.2.2 p.1 (List.mem_map_of_mem hp) a (by simp) he
    simpa using fun he => hne he.symm

omit [DecidableEq S] [DecidableEq F] in
theorem seating_of_matching {m : List (Int × O)} (hleft : (m.map Prod.fst).Nodup) (hright : (m.map Prod.snd).Nodup)
    (hmay : ∀ p ∈ m, MayTake stored pool occurrences p.1 p.2) :
    Seating stored pool occurrences (m.map Prod.fst).toFinset (m.map Prod.snd).toFinset fun sid => m.lookup sid := by
  refine ⟨fun sid => ?_, fun o => ?_, fun a b o ha hb => ?_, fun sid o h => ?_⟩
  · rw [Option.isSome_iff_exists, List.mem_toFinset, List.mem_map]
    constructor
    · rintro ⟨o, ho⟩
      exact ⟨(sid, o), (lookup_iff hleft sid o).mp ho, rfl⟩
    · rintro ⟨p, hp, rfl⟩
      exact ⟨p.2, (lookup_iff hleft p.1 p.2).mpr hp⟩
  · rw [List.mem_toFinset, List.mem_map]
    constructor
    · rintro ⟨p, hp, rfl⟩
      exact ⟨p.1, (lookup_iff hleft p.1 p.2).mpr hp⟩
    · rintro ⟨sid, hsid⟩
      exact ⟨(sid, o), (lookup_iff hleft sid o).mp hsid, rfl⟩
  · have heq := List.inj_on_of_nodup_map hright ((lookup_iff hleft a o).mp ha) ((lookup_iff hleft b o).mp hb) rfl
    exact (Prod.mk.inj heq).1
  · exact hmay (sid, o) ((lookup_iff hleft sid o).mp h)

theorem dictOf_snoc {K : Type} (pairs : List (O × K)) (p : O × K) (h : p.1 ∉ (dictOf pairs).map Prod.fst) :
    dictOf (pairs ++ [p]) = dictOf pairs ++ [p] := by
  rw [dictOf, List.foldl_append, List.foldl_cons, List.foldl_nil, ← dictOf, if_neg h]

theorem dictOf_eq {K : Type} (pairs : List (O × K)) (h : (pairs.map Prod.fst).Nodup) : dictOf pairs = pairs := by
  induction pairs using List.reverseRecOn with
  | nil => rfl
  | append_singleton pairs p ih =>
    rw [List.map_append, List.nodup_append] at h
    have hsame := ih h.1
    rw [dictOf_snoc pairs p, hsame]
    rw [hsame]
    exact fun hmem => h.2.2 _ hmem p.1 (by simp) rfl

/-- The third pass starts from the seats of the first two. -/
theorem startReroute_routed (hlabels : (occurrences.map Prod.fst).Nodup) {first second : List (Int × O)}
    (hleft : ((first ++ second).map Prod.fst).Nodup)
    (hseating : Seating stored pool occurrences ((first ++ second).map Prod.fst).toFinset
    ((first ++ second).map Prod.snd).toFinset
      fun sid => (first ++ second).lookup sid) :
    Routed stored pool occurrences ((first ++ second).map Prod.fst).toFinset
      (startReroute stored pool first (first.map Prod.snd ++ second.map Prod.snd) (dictOf occurrences))
      ((first ++ second).map Prod.snd).toFinset fun sid => (first ++ second).lookup sid := by
  rw [dictOf_eq occurrences hlabels]
  have hheld : ∀ sid k, heldKey first occurrences sid = some k →
      ∃ o, (first ++ second).lookup sid = some o ∧ (o, k) ∈ occurrences := by
    intro sid k hk
    rw [heldKey] at hk
    cases hfirst : first.lookup sid with
    | none =>
      rw [hfirst] at hk
      cases hk
    | some o =>
      rw [hfirst] at hk
      have hnodup : (first.map Prod.fst).Nodup := hleft.sublist ((List.sublist_append_left first second).map Prod.fst)
      have hmem := (lookup_iff hnodup sid o).mp hfirst
      refine ⟨o, (lookup_iff hleft sid o).mpr (List.mem_append_left _ hmem), (lookup_iff hlabels o k).mp ?_⟩
      exact (Option.filter_eq_some_iff.mp hk).1
  refine ⟨?_, fun k => ?_, fun sid k hk => ?_, fun form sid hsid => ?_, fun form => ?_⟩
  · simpa [startReroute] using hseating
  · have hsub : (occurrences.filter fun x => x.2.1.isSome ∧
      x.1 ∉ first.map Prod.snd ++ second.map Prod.snd ∧ x.2 = k).Sublist
        (occurrences.filter fun x => x.2 = k ∧ x.1 ∉ ((first ++ second).map Prod.snd).toFinset) := by
      refine List.monotone_filter_right _ fun x hx => ?_
      obtain ⟨-, htaken, hkey⟩ := of_decide_eq_true hx
      refine decide_eq_true ⟨hkey, ?_⟩
      rwa [List.mem_toFinset, List.map_append]
    exact hsub.length_le
  · change (if sid ∈ (pool.map stored.storeId).eraseDups then heldKey first occurrences sid else none) = some k at hk
    split at hk
    · exact hheld sid k hk
    · cases hk
  · obtain ⟨hmem, hform⟩ := List.mem_filter.mp hsid
    obtain ⟨k, hk, hkform⟩ := Option.any_eq_true _ _ |>.mp hform
    refine ⟨k.1, ?_⟩
    change (if sid ∈ (pool.map stored.storeId).eraseDups then heldKey first occurrences sid else none) = _
    rw [if_pos hmem, hk, ← of_decide_eq_true hkform]
  · have hnodup : (pool.map stored.storeId).eraseDups.Nodup := by
      rw [← merged_fst stored.storeId (fun _ => ([] : List F)) pool]
      exact merged_nodup _ _ pool
    exact hnodup.filter _

/-- The occurrences that the second pass sees. -/
def leftOver (occurrences : List (O × (Option S × F))) (taken : List O) : List (O × (String × F)) :=
  (occurrences.filter fun x => x.2.1.isSome ∧ x.1 ∉ taken).map fun x => (x.1, ("null", x.2.2))

omit [DecidableEq S] [DecidableEq F] in
theorem mem_leftOver {taken : List O} {o : O} {tag : String} {form : F}
    (h : (o, (tag, form)) ∈ leftOver occurrences taken) :
    o ∉ taken ∧ ∃ stamp, (o, (stamp, form)) ∈ occurrences := by
  obtain ⟨x, hx, heq⟩ := List.mem_map.mp h
  obtain ⟨hmem, hfacts⟩ := List.mem_filter.mp hx
  obtain ⟨rfl, hkey⟩ := Prod.mk.inj heq
  obtain ⟨-, rfl⟩ := Prod.mk.inj hkey
  exact ⟨(of_decide_eq_true hfacts).2, x.2.1, hmem⟩

omit [DecidableEq S] [DecidableEq F] in
theorem leftOver_nodup (hlabels : (occurrences.map Prod.fst).Nodup) (taken : List O) :
    ((leftOver occurrences taken).map Prod.fst).Nodup := by
  rw [leftOver, List.map_map]
  exact (List.filter_sublist.map Prod.fst).nodup hlabels

omit [DecidableEq S] [DecidableEq F] in
/-- The matchings of the first two passes together. -/
theorem two_passes {first second : List (Int × O)}
    (hfirst : IsMatching (Admissible stored.storeId (keysOf stored) pool occurrences) first)
    (hsecond : IsMatching (Admissible stored.storeId (fun row => (stored.formsOf row).map fun form => ("null", form))
      (pool.filter fun row => stored.observedAt row = none ∧ stored.storeId row ∉ first.map Prod.fst)
      (leftOver occurrences (first.map Prod.snd))) second) :
    ((first ++ second).map Prod.fst).Nodup ∧ Seating stored pool occurrences ((first ++ second).map Prod.fst).toFinset
      ((first ++ second).map Prod.snd).toFinset fun sid => (first ++ second).lookup sid := by
  have hmayFirst : ∀ p ∈ first, MayTake stored pool occurrences p.1 p.2 := by
    intro p hp
    obtain ⟨k, ho, row, hrow, hid, hkey⟩ := hfirst.related p hp
    exact hid ▸ mayTake_of_key hrow hkey ho
  have hfacts : ∀ p ∈ second, p.1 ∉ first.map Prod.fst ∧ p.2 ∉ first.map Prod.snd ∧
      MayTake stored pool occurrences p.1 p.2 := by
    intro p hp
    obtain ⟨k, ho, row, hrow, hid, hkey⟩ := hsecond.related p hp
    obtain ⟨hmem, hrowFacts⟩ := List.mem_filter.mp hrow
    obtain ⟨hnull, hfree⟩ := of_decide_eq_true hrowFacts
    obtain ⟨form, hform, rfl⟩ := List.mem_map.mp hkey
    obtain ⟨huntaken, stamp, hocc⟩ := mem_leftOver ho
    rw [← hid]
    exact ⟨hfree, huntaken, mayTake_of_null hmem hnull hform hocc⟩
  have hleft : ((first ++ second).map Prod.fst).Nodup := by
    rw [List.map_append, List.nodup_append]
    refine ⟨hfirst.left, hsecond.left, fun a ha b hb he => ?_⟩
    obtain ⟨p, hp, rfl⟩ := List.mem_map.mp hb
    exact (hfacts p hp).1 (he ▸ ha)
  have hright : ((first ++ second).map Prod.snd).Nodup := by
    rw [List.map_append, List.nodup_append]
    refine ⟨hfirst.right, hsecond.right, fun a ha b hb he => ?_⟩
    obtain ⟨p, hp, rfl⟩ := List.mem_map.mp hb
    exact (hfacts p hp).2.1 (he ▸ ha)
  refine ⟨hleft, seating_of_matching hleft hright fun p hp => ?_⟩
  rcases List.mem_append.mp hp with hp | hp
  · exact hmayFirst p hp
  · exact (hfacts p hp).2.2

/-- The reserved rows can all be seated, and the rows of the first pass are among them. -/
theorem reserved_seated (stored : Stored S F ρ) (repr : Reprs S F) (pool : List ρ)
    (occurrences : List (O × (Option S × F)))
    (hlabels : (occurrences.map Prod.fst).Nodup) :
    ∃ first reserved used seat, matchOccurrences repr.key stored.storeId (keysOf stored) pool occurrences = some first ∧
      reserveShown stored repr pool occurrences = some reserved ∧ (first.map Prod.fst).toFinset ⊆ reserved ∧
      Seating stored pool occurrences reserved used seat := by
  obtain ⟨first, hreturns, hfirst, -⟩ :=
    matchOccurrences_matching repr.key stored.storeId (keysOf stored) pool occurrences hlabels
  obtain ⟨second, hreturns', hsecond, -⟩ := matchOccurrences_matching repr.null stored.storeId
    (fun row => (stored.formsOf row).map fun form => ("null", form))
    (pool.filter fun row => stored.observedAt row = none ∧ stored.storeId row ∉ first.map Prod.fst)
    (leftOver occurrences (first.map Prod.snd)) (leftOver_nodup hlabels _)
  obtain ⟨hleft, hseating⟩ := two_passes hfirst hsecond
  have hmap : (first.map Prod.fst).toFinset ∪ (second.map Prod.fst).toFinset =
      ((first ++ second).map Prod.fst).toFinset := by
    rw [List.map_append, List.toFinset_append]
  have hsub : (first.map Prod.fst).toFinset ⊆ ((first ++ second).map Prod.fst).toFinset := by
    rw [← hmap]
    exact Finset.subset_union_left
  rw [reserveShown, hreturns]
  simp only [Option.bind_eq_bind, Option.bind_some]
  rw [← leftOver]
  split
  · rw [hreturns']
    simp only [Option.bind_some, hmap]
    split
    · -- the rows of the third pass are the NULL rows that neither pass matched
      have hrest : ∀ row ∈ (pool.filter fun row => stored.observedAt row = none ∧
        stored.storeId row ∉ first.map Prod.fst).filter
          (fun row => stored.storeId row ∉ second.map Prod.fst), row ∈ pool ∧ stored.observedAt row = none ∧
            stored.storeId row ∉ ((first ++ second).map Prod.fst).toFinset := by
        intro row hrow
        obtain ⟨hrow, hunmatched⟩ := List.mem_filter.mp hrow
        obtain ⟨hmem, hfacts⟩ := List.mem_filter.mp hrow
        obtain ⟨hnull, hfree⟩ := of_decide_eq_true hfacts
        refine ⟨hmem, hnull, fun hin => ?_⟩
        rw [← hmap, Finset.mem_union, List.mem_toFinset, List.mem_toFinset] at hin
        exact hin.elim hfree (by simpa using hunmatched)
      obtain ⟨used, seat, hrouted⟩ := routeRows_routed hlabels
        (matchWorkPerItem * (pool.length + (dictOf occurrences).length) + matchWorkFloor) _ _ _ _
        hrest (startReroute_routed hlabels hleft hseating)
      exact ⟨first, _, used, seat, rfl, rfl, hsub.trans Finset.subset_union_left, hrouted.seating⟩
    · exact ⟨first, _, _, _, rfl, rfl, hsub, hseating⟩
  · have hnone := seating_of_matching hfirst.left hfirst.right fun p hp => by
      obtain ⟨k, ho, row, hrow, hid, hkey⟩ := hfirst.related p hp
      exact hid ▸ mayTake_of_key hrow hkey ho
    exact ⟨first, _, _, _, rfl, rfl, Finset.Subset.refl _, hnone⟩

def moving : Stored Nat String (Int × Option Nat × List String) where
  storeId row := row.1
  observedAt row := row.2.1
  formsOf row := row.2.2
  aliases _ := []

def movingPool : List (Int × Option Nat × List String) := [(1, some 7, ["f", "g"]), (2, none, ["f"])]

def shownTwice : List (Nat × (Option Nat × String)) := [(0, (some 7, "f")), (1, (some 7, "g"))]

/-- The stamped row moves, and leaves its occurrence to the row without a stamp. -/
theorem reserved_seated_moving : ∃ first reserved used seat,
    matchOccurrences (fun k => k.2) moving.storeId (keysOf moving) movingPool shownTwice = some first ∧
      reserveShown moving ⟨fun k => k.2, fun k => k.2, id⟩ movingPool shownTwice = some reserved ∧
      (first.map Prod.fst).toFinset ⊆ reserved ∧
      Seating moving movingPool shownTwice reserved used seat :=
  reserved_seated moving ⟨fun k => k.2, fun k => k.2, id⟩ movingPool shownTwice (by decide)

example : reserveShown moving ⟨fun k => k.2, fun k => k.2, id⟩ movingPool shownTwice = some {1, 2} := by decide +kernel

end RecognitionMatching
