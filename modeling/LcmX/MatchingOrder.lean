import LcmX.MatchingResult

/-!
# Occurrences in view order

The loops of a call end by themselves, whether or not the budget is spent, and the last
loop hands out the occurrences of each key one after the other. An occurrence is a place
in the view here, so that two occurrences with one label stay two.
-/
namespace RecognitionMatching

open Finset Bipartite

variable {K O ρ : Type} [DecidableEq K]

/-! ## The last loop -/

/-- The last loop never looks at the occurrences that it hands out. -/
theorem assign_map {P : Type} (label : P → O) (places : K → List P) (st : MatchState K) (rest : List (Int × List K)) :
    ∀ (given : List K → K → Nat) (taken : K → Nat),
      assign (fun k => (places k).map label) st rest given taken =
        (assign places st rest given taken).map (List.map fun p => (p.1, label p.2)) := by
  induction rest with
  | nil => exact fun _ _ => rfl
  | cons r rest ih =>
    obtain ⟨sid, kind⟩ := r
    intro given taken
    rw [assign, assign]
    by_cases hmatched : sid ∈ st.matched
    · simp only [hmatched, if_true]
      cases kind.find? (fun k => given kind k < st.units kind k) with
      | none => rfl
      | some k =>
        simp only [List.getElem?_map]
        cases (places k)[taken k]? with
        | none => rfl
        | some o =>
          simp only [Option.map_some, ih, Option.map_map]
          rfl
    · simp only [hmatched, if_false, ih]

/-- The rows of a key take the occurrences of the key in view order, from the first one not taken. -/
theorem assign_in_order {slots : K → List O} {keyAt : O → K} (hkey : ∀ k, ∀ o ∈ slots k, keyAt o = k)
    (st : MatchState K) (rest : List (Int × List K)) :
    ∀ (given : List K → K → Nat) (taken : K → Nat) (out : List (Int × O)), assign slots st rest given taken = some out →
      ∀ k, (out.map Prod.snd).filter (fun o => keyAt o = k) <+: (slots k).drop (taken k) := by
  induction rest with
  | nil =>
    intro given taken out hout k
    cases hout
    exact List.nil_prefix
  | cons r rest ih =>
    obtain ⟨sid, kind⟩ := r
    intro given taken out hout k
    rw [assign] at hout
    by_cases hmatched : sid ∈ st.matched
    · simp only [hmatched, if_true] at hout
      cases hfind : kind.find? (fun k => given kind k < st.units kind k) with
      | none => simp [hfind] at hout
      | some x =>
        cases hslot : (slots x)[taken x]? with
        | none => simp [hfind, hslot] at hout
        | some o =>
          simp only [hfind, hslot, Option.map_eq_some_iff] at hout
          obtain ⟨later, hlater, rfl⟩ := hout
          have hprefix := ih _ _ later hlater k
          have hx : keyAt o = x := hkey x o (List.mem_of_getElem? hslot)
          by_cases hk : x = k
          · subst hk
            obtain ⟨hlt, ho⟩ := List.getElem?_eq_some_iff.mp hslot
            rw [Function.update_self] at hprefix
            rw [List.map_cons, List.filter_cons_of_pos (by simp [hx]), List.drop_eq_getElem_cons hlt, ho]
            exact List.cons_prefix_cons.mpr ⟨rfl, hprefix⟩
          · rw [Function.update_of_ne fun h => hk h.symm] at hprefix
            rwa [List.map_cons, List.filter_cons_of_neg (by simp [hx, hk])]
    · simp only [hmatched, if_false] at hout
      exact ih given taken out hout k

/-! ## Places in the view -/

section Places

variable (occurrences : List (O × K))

def keyAt (i : Fin occurrences.length) : K := (occurrences.get i).2

def labelAt (i : Fin occurrences.length) : O := (occurrences.get i).1

/-- The places of one key, in view order. -/
def slotPlaces (k : K) : List (Fin occurrences.length) :=
  (List.finRange occurrences.length).filter fun i => keyAt occurrences i = k

theorem slots_places (k : K) : slots occurrences k = (slotPlaces occurrences k).map (labelAt occurrences) := by
  have hlist : occurrences = (List.finRange occurrences.length).map occurrences.get := by simp
  have hfilter : occurrences.filter (fun o => o.2 = k) =
      ((List.finRange occurrences.length).filter fun i => keyAt occurrences i = k).map occurrences.get := by
    conv_lhs => rw [hlist]
    rw [List.filter_map]
    rfl
  rw [slots, hfilter, List.map_map]
  rfl

theorem mem_slotPlaces {k : K} {i : Fin occurrences.length} : i ∈ slotPlaces occurrences k ↔
    keyAt occurrences i = k := by
  simp [slotPlaces]

theorem slotPlaces_nodup (k : K) : (slotPlaces occurrences k).Nodup := (List.nodup_finRange _).filter _

theorem slotPlaces_inj (k : K) (i : Nat) (k' : K) (j : Nat) (o : Fin occurrences.length)
    (hi : (slotPlaces occurrences k)[i]? = some o) (hj : (slotPlaces occurrences k')[j]? = some o) :
      k = k' ∧ i = j := by
  have hk := (mem_slotPlaces occurrences).mp (List.mem_of_getElem? hi)
  have hk' := (mem_slotPlaces occurrences).mp (List.mem_of_getElem? hj)
  obtain rfl : k = k' := hk.symm.trans hk'
  obtain ⟨hlt, -⟩ := List.getElem?_eq_some_iff.mp hi
  exact ⟨rfl, (List.getElem?_inj hlt (slotPlaces_nodup occurrences k)).mp (hi.trans hj.symm)⟩

theorem length_slotPlaces (k : K) : (slotPlaces occurrences k).length = (slots occurrences k).length := by
  rw [slots_places, List.length_map]

end Places

/-! ## The loops end -/

/-- The walk over the queue has ended by itself. -/
def Search.Ended (s : Search K) : Prop := s.queue = [] ∨ s.found.isSome = true ∨ s.spent = true

/-- The walk back from the free key ends at a key of the row, which has no parent. -/
def Search.Rooted (s : Search K) : Prop :=
  ∀ k st, s.found = some k → s.parent.lookup (shift s.parent s.parent.length st k).2 = some none

/-- A parent stands before its children, so the walk back cannot go round. -/
theorem shift_rooted {parent : List (K × Option (List K × K))} (hnd : (parent.map Prod.fst).Nodup)
    (hparent : ∀ p k kind q rest, parent = p ++ (k, some (kind, q)) :: rest → q ∈ p.map Prod.fst) (fuel : Nat) :
    ∀ (pre : List (K × Option (List K × K))) (found : K) (e : Option (List K × K))
    (post : List (K × Option (List K × K)))
      (st : MatchState K), parent = pre ++ (found, e) :: post → pre.length < fuel →
      parent.lookup (shift parent fuel st found).2 = some none := by
  induction fuel with
  | zero =>
    intro pre found e post st _ hlt
    omega
  | succ fuel ih =>
    intro pre found e post st hp hlt
    have hfront : found ∉ pre.map Prod.fst := by
      intro hmem
      rw [hp, List.map_append, List.nodup_append] at hnd
      exact hnd.2.2 found hmem found (by simp) rfl
    have hlookup : parent.lookup found = some e := by
      rw [hp]
      exact lookup_split pre found e post hfront
    rw [shift, hlookup]
    cases e with
    | none => exact hlookup
    | some e =>
      obtain ⟨kind, previous⟩ := e
      obtain ⟨⟨p', e'⟩, hmem, rfl⟩ := List.mem_map.mp (hparent pre found kind previous post hp)
      obtain ⟨before, after, rfl⟩ := List.append_of_mem hmem
      refine ih before p' e' (after ++ (found, some (kind, p')) :: post) _ (by rw [hp]; simp) ?_
      rw [List.length_append, List.length_cons] at hlt
      omega

variable {cap : K → Nat} {st : MatchState K}

theorem Sound.rooted {T : Finset (List K)} {own : List K} {s : Search K}
    (h : ∀ k, s.found = some k → Sound cap T own s) : s.Rooted := by
  intro k st hk
  have hsound := h k hk
  obtain ⟨hvisited, -⟩ := hsound.free k hk
  obtain ⟨⟨k', e⟩, hmem, rfl⟩ := List.mem_map.mp hvisited
  obtain ⟨pre, post, hp⟩ := List.append_of_mem hmem
  have hentry : ∀ p k kind q rest, s.parent = p ++ (k, some (kind, q)) :: rest → q ∈ p.map Prod.fst :=
    fun p k kind q rest hsplit => (hsound.entry p k (some (kind, q)) rest hsplit).2.1
  refine shift_rooted hsound.nodup hentry s.parent.length pre k' e post st hp ?_
  rw [hp]
  simp

/-- With a pass for every key the walk ends by itself. -/
theorem search_ended {T : Finset (List K)} {own : List K} {keys : Finset K} (budget : Nat) {fuel : Nat}
    (hT : ∀ t ∈ T, ∀ x ∈ t, x ∈ keys) (h : Inv cap T none st) (hs : st.spent = false)
    (hown : ∀ k ∈ own, k ∈ keys ∧ st.load k = cap k) (hnodup : own.Nodup) (hfuel : keys.card ≤ fuel) :
    (search cap budget fuel own st).Ended := by
  obtain ⟨hsound, hf, hsp, hseen, hw, hp, -⟩ := start_spec h hs hown hnodup
  obtain ⟨-, -, hend⟩ := walk_spec budget hT fuel (start own st) hsound hf hsp hseen hw (by omega)
  have hsame : (search cap budget fuel own st).queue = (walk cap budget fuel (start own st)).queue ∧
      (search cap budget fuel own st).found = (walk cap budget fuel (start own st)).found ∧
      (search cap budget fuel own st).spent = (walk cap budget fuel (start own st)).spent := by
    unfold search
    simp only
    split <;> exact ⟨rfl, rfl, rfl⟩
  rw [Search.Ended, hsame.1, hsame.2.1, hsame.2.2]
  cases hfound : (walk cap budget fuel (start own st)).found with
  | some k => exact .inr (.inl rfl)
  | none =>
    cases hspent : (walk cap budget fuel (start own st)).spent with
    | true => exact .inr (.inr rfl)
    | false => exact .inl (hend hfound hspent).2

/-! ## Rows with one key -/

/-- Where no row has two keys nothing ever moves, and a key takes its rows until it is full. -/
structure Plain (cap : K → Nat) (rows : List (Int × List K)) (st : MatchState K) : Prop where
  still : ∀ k, st.movable k = []
  spent : st.spent = false
  load : ∀ k, st.load k = min (cap k) (rows.filter fun r => r.2 = [k]).length
  served : ∀ k, rows.filter (fun r => r.2 = [k] ∧ r.1 ∈ st.matched) = (rows.filter fun r => r.2 = [k]).take (cap k)

theorem plain_initial (cap : K → Nat) : Plain cap [] initial := by
  refine ⟨fun _ => rfl, rfl, fun k => ?_, fun k => ?_⟩ <;> simp [initial]

/-- A search from a key that nothing can leave closes the key. -/
theorem search_still (cap : K → Nat) (budget fuel : Nat) {k : K} (hstill : st.movable k = [])
    (hspent : st.spent = false) :
    (search cap budget fuel [k] st).found = none ∧ (search cap budget fuel [k] st).movable = st.movable ∧
      (search cap budget fuel [k] st).load = st.load ∧ (search cap budget fuel [k] st).matched = st.matched ∧
      (search cap budget fuel [k] st).spent = false := by
  have hwalk : ∀ s : Search K, s.queue = [] → walk cap budget fuel s = s := by
    intro s hq
    cases fuel with
    | zero => rfl
    | succ fuel => rw [walk, hq]
  have hstart : (start [k] st).queue = [] ∧ (start [k] st).found = none ∧ (start [k] st).movable = st.movable ∧
      (start [k] st).load = st.load ∧ (start [k] st).matched = st.matched ∧ (start [k] st).spent = false := by
    rw [start, List.foldl_cons, List.foldl_nil]
    split
    · exact ⟨rfl, rfl, rfl, rfl, rfl, hspent⟩
    · rw [Search.enqueue, if_pos (by exact hstill)]
      exact ⟨rfl, rfl, rfl, rfl, rfl, hspent⟩
  obtain ⟨hq, hf, hm, hl, hmatched, hs⟩ := hstart
  unfold search
  rw [hwalk _ hq]
  simp only
  split <;> exact ⟨hf, hm, hl, hmatched, hs⟩

theorem filter_insert_matched {rows : List (Int × List K)} {matched : Finset Int} {sid : Int}
    (hsid : sid ∉ rows.map Prod.fst) (k : K) :
    rows.filter (fun r => r.2 = [k] ∧ r.1 ∈ insert sid matched) = rows.filter fun r => r.2 = [k] ∧ r.1 ∈ matched := by
  apply List.filter_congr
  intro r hr
  have hne : r.1 ≠ sid := fun he => hsid (he ▸ List.mem_map_of_mem hr)
  simp [hne]

/-- A row with another type, or with none, is nothing to the key. -/
theorem plain_pass {rows : List (Int × List K)} (st' : MatchState K) {sid : Int} {own : List K}
    {k : K} (h : Plain cap rows st)
    (hsid : sid ∉ rows.map Prod.fst) (hown : own ≠ [k]) (hload : st'.load k = st.load k)
    (hmatched : st'.matched = insert sid st.matched ∨ st'.matched = st.matched) :
    st'.load k = min (cap k) ((rows ++ [(sid, own)]).filter fun r => r.2 = [k]).length ∧
      (rows ++ [(sid, own)]).filter (fun r => r.2 = [k] ∧ r.1 ∈ st'.matched) =
        ((rows ++ [(sid, own)]).filter fun r => r.2 = [k]).take (cap k) := by
  have hrest : rows.filter (fun r => r.2 = [k] ∧ r.1 ∈ st'.matched) = rows.filter fun r => r.2 =
      [k] ∧ r.1 ∈ st.matched := by
    rcases hmatched with hm | hm
    · rw [hm, filter_insert_matched hsid]
    · rw [hm]
  have hload' := h.load k
  have hserved := h.served k
  constructor
  · simpa [hown, hload] using hload'
  · rw [List.filter_append, hrest, hserved]
    simp [hown]

/-- A row of at most one key is served until its key is full. -/
theorem plain_row (budget fuel : Nat) {rows : List (Int × List K)} {sid : Int} {own : List K}
    (h : Plain cap rows st) (hsid : sid ∉ rows.map Prod.fst)
    (hlisted : ∀ x ∈ st.matched, x ∈ rows.map Prod.fst) (hown : own.length ≤ 1) :
    Plain cap (rows ++ [(sid, own)]) (matchRow cap budget fuel st (sid, own)) := by
  have hnew : sid ∉ st.matched := fun hm => hsid (hlisted sid hm)
  match own, hown with
  | [], _ =>
    have hsame : matchRow cap budget fuel st (sid, []) = st := by
      rw [matchRow]
      simp
    rw [hsame]
    have hpass : ∀ k, _ := fun k => plain_pass st h hsid (show [] ≠ [k] by simp) rfl (Or.inr rfl)
    exact ⟨h.still, h.spent, fun k => (hpass k).1, fun k => (hpass k).2⟩
  | [x], _ =>
    by_cases hfree : st.load x < cap x
    · have hplace : matchRow cap budget fuel st (sid, [x]) =
          { st with
            load := Function.update st.load x (st.load x + 1)
            matched := insert sid st.matched
            units := addUnit st.units [x] x } := by
        rw [matchRow]
        simp only [List.find?_cons, hfree, decide_true]
        rfl
      rw [hplace]
      have hlen : (rows.filter fun r => r.2 = [x]).length < cap x := by
        have hload := h.load x
        omega
      have hkey : ∀ k, Function.update st.load x (st.load x + 1) k = min (cap k)
        ((rows ++ [(sid, [x])]).filter fun r => r.2 = [k]).length ∧
          (rows ++ [(sid, [x])]).filter (fun r => r.2 = [k] ∧ r.1 ∈ insert sid st.matched) =
            ((rows ++ [(sid, [x])]).filter fun r => r.2 = [k]).take (cap k) := by
        intro k
        by_cases hk : x = k
        · subst hk
          have hload := h.load x
          have hserved := h.served x
          rw [Function.update_self, List.filter_append, List.filter_append, filter_insert_matched hsid, hserved]
          rw [List.take_of_length_le (by omega)]
          constructor
          · simp
            omega
          · rw [List.take_of_length_le (by simp; omega)]
            simp
        · exact plain_pass
            { st with load := Function.update st.load x (st.load x + 1), matched := insert sid st.matched } h hsid (by simp [hk]) (Function.update_of_ne (fun he => hk he.symm) _ _) (Or.inl rfl)
      exact ⟨h.still, h.spent, fun k => (hkey k).1, fun k => (hkey k).2⟩
    · obtain ⟨hf, hm, hl, hmatched, hs⟩ := search_still cap budget fuel (h.still x) h.spent
      have hskip : matchRow cap budget fuel st (sid, [x]) = (search cap budget fuel [x] st).toMatchState := by
        rw [matchRow]
        simp only [List.find?_cons, hfree, decide_false, List.find?_nil, h.spent, reduceCtorEq, or_self, if_false, hf]
      rw [hskip]
      have hlen : cap x ≤ (rows.filter fun r => r.2 = [x]).length := by
        have hload := h.load x
        omega
      have hkey : ∀ k, (search cap budget fuel [x] st).load k = min (cap k)
        ((rows ++ [(sid, [x])]).filter fun r => r.2 = [k]).length ∧
          (rows ++ [(sid, [x])]).filter (fun r => r.2 = [k] ∧ r.1 ∈ (search cap budget fuel [x] st).matched) =
            ((rows ++ [(sid, [x])]).filter fun r => r.2 = [k]).take (cap k) := by
        intro k
        by_cases hk : x = k
        · subst hk
          have hload := h.load x
          have hserved := h.served x
          rw [hl, hmatched, List.filter_append, List.filter_append, hserved, List.take_append_of_le_length hlen]
          constructor
          · simp
            omega
          · simp [hnew]
        · exact plain_pass _ h hsid (by simp [hk]) (by rw [hl]) (Or.inr hmatched)
      refine ⟨fun k => ?_, hs, fun k => (hkey k).1, fun k => (hkey k).2⟩
      rw [hm]
      exact h.still k

/-! ## The call -/

section Call

variable (repr : K → String) (storeId : ρ → Int) (keysOf : ρ → List K) (rows : List ρ) (occurrences : List (O × K))

/-- The search that the loop makes for a row, after the first `n` rows. -/
def searchAt (n : Nat) (own : List K) : Search K :=
  let kinds := kinds repr storeId keysOf rows occurrences
  let keys := slotKeys occurrences
  let budget := matchWorkPerItem * (kinds.length + occurrences.length + keys.length) + matchWorkFloor
  search (fun k => (slots occurrences k).length) budget keys.length own
    (matchPrefix repr storeId keysOf rows occurrences n)

theorem kind_slotKeys : ∀ t ∈ typesOf repr storeId keysOf rows occurrences, ∀ x ∈ t,
    x ∈ (slotKeys occurrences).toFinset := by
  intro t ht x hx
  obtain ⟨r, hr, rfl⟩ := List.mem_map.mp (List.mem_toFinset.mp ht)
  rw [List.mem_toFinset, mem_slotKeys]
  exact (((mem_kinds _ _ _ _ _ hr).2 x).mp hx).1

/-- Every search of the call ends by itself, and so does the walk back from what it found. -/
theorem searchAt_ended {n : Nat} {sid : Int} {own : List K}
    (hrow : (kinds repr storeId keysOf rows occurrences)[n]? = some (sid, own))
    (hfull : ∀ k ∈ own, (slots occurrences k).length ≤ (matchPrefix repr storeId keysOf rows occurrences n).load k)
    (hspent : (matchPrefix repr storeId keysOf rows occurrences n).spent = false) :
    (searchAt repr storeId keysOf rows occurrences n own).Ended ∧
    (searchAt repr storeId keysOf rows occurrences n own).Rooted := by
  obtain ⟨hinv, -, -⟩ := matchPrefix_spec repr storeId keysOf rows occurrences n
  have hmem := List.mem_of_getElem? hrow
  have hT := kind_slotKeys repr storeId keysOf rows occurrences
  have hkeys : ∀ k ∈ own, k ∈ (slotKeys occurrences).toFinset ∧
      (matchPrefix repr storeId keysOf rows occurrences n).load k = (slots occurrences k).length :=
    fun k hk => ⟨hT own (kinds_snd_mem repr storeId keysOf rows occurrences hmem) k hk,
      Nat.le_antisymm (hinv.inv.load_le k) (hfull k hk)⟩
  have hnodup := (mem_kinds _ _ _ _ _ hmem).1
  have hcard : (slotKeys occurrences).toFinset.card ≤ (slotKeys occurrences).length := List.toFinset_card_le _
  exact ⟨search_ended _ hT hinv.inv hspent hkeys hnodup hcard,
    Sound.rooted (search_spec _ hT hinv.inv hspent hkeys hnodup hcard).2.1⟩

theorem matchPrefix_succ {n : Nat} (hn : n < (kinds repr storeId keysOf rows occurrences).length) :
    matchPrefix repr storeId keysOf rows occurrences (n + 1) =
      matchRow (fun k => (slots occurrences k).length)
        (matchWorkPerItem * ((kinds repr storeId keysOf rows occurrences).length +
        occurrences.length + (slotKeys occurrences).length) + matchWorkFloor)
        (slotKeys occurrences).length (matchPrefix repr storeId keysOf rows occurrences n)
        (kinds repr storeId keysOf rows occurrences)[n] := by
  simp only [matchPrefix, List.take_succ_eq_append_getElem hn, List.foldl_append, List.foldl_cons, List.foldl_nil]

theorem plain_prefix (hone : ∀ r ∈ kinds repr storeId keysOf rows occurrences, r.2.length ≤ 1) (n : Nat) :
    n ≤ (kinds repr storeId keysOf rows occurrences).length →
      Plain (fun k => (slots occurrences k).length) ((kinds repr storeId keysOf rows occurrences).take n)
        (matchPrefix repr storeId keysOf rows occurrences n) := by
  induction n with
  | zero => exact fun _ => plain_initial _
  | succ n ih =>
    intro hn
    obtain ⟨hinv, -, -⟩ := matchPrefix_spec repr storeId keysOf rows occurrences n
    have hnodup := kinds_nodup repr storeId keysOf rows occurrences
    have hplain := ih (by omega)
    rw [matchPrefix_succ repr storeId keysOf rows occurrences hn, List.take_succ_eq_append_getElem hn]
    have hmem := List.getElem_mem hn
    have hsub := List.take_sublist (n + 1) (kinds repr storeId keysOf rows occurrences)
    rw [List.take_succ_eq_append_getElem hn] at hsub
    have hfresh : ((kinds repr storeId keysOf rows occurrences)[n]).1 ∉
        ((kinds repr storeId keysOf rows occurrences).take n).map Prod.fst := by
      have hsplit := hnodup.sublist (hsub.map Prod.fst)
      rw [List.map_append, List.nodup_append] at hsplit
      exact fun h => hsplit.2.2 _ h _ (by simp) rfl
    exact plain_row _ _ hplain hfresh hinv.listed (hone _ hmem)

/-- A row has the key, and the view an occurrence of it. -/
def Admits (sid : Int) (k : K) : Prop := (∃ o, (o, k) ∈ occurrences) ∧ ∃ row ∈ rows, storeId row = sid ∧ k ∈ keysOf row

/-- The rows of one key, in the order in which they first appear. -/
def rowsOf (k : K) : List Int := (rows.map storeId).eraseDups.filter fun sid => ∃ row ∈ rows,
    storeId row = sid ∧ k ∈ keysOf row

theorem kinds_single {k : K} (hone : ∀ r ∈ kinds repr storeId keysOf rows occurrences, r.2.length ≤ 1)
    (hk : ∃ o, (o, k) ∈ occurrences) :
    ((kinds repr storeId keysOf rows occurrences).filter fun r => r.2 = [k]).map Prod.fst =
      rowsOf storeId keysOf rows k := by
  rw [rowsOf, ← kinds_fst repr storeId keysOf rows occurrences, List.filter_map]
  congr 1
  apply List.filter_congr
  intro r hr
  have hlen := hone r hr
  have hmem := (mem_kinds _ _ _ _ _ hr).2 k
  have hiff : r.2 = [k] ↔ k ∈ r.2 := by
    match r.2, hlen with
    | [], _ => simp
    | [x], _ => simp [eq_comm]
  simp only [Function.comp_apply, hiff, hmem, hk, true_and]

theorem zip_take_min {α β : Type} (xs : List α) (ys : List β) {n m : Nat} (hn : n = ys.length)
    (hm : m = min n xs.length) :
    (xs.take n).zip (ys.take m) = xs.zip ys := by
  have hshort : m = min xs.length ys.length := by omega
  have hzip := @List.zip_eq_zip_take_min _ _ xs ys
  rw [hzip, ← hshort, List.take_eq_take_min (i := n), ← hm]

/-- The occurrences are handed out by place. -/
theorem matchOccurrences_places : ∃ places : List (Int × Fin occurrences.length),
    matchOccurrences repr storeId keysOf rows occurrences = some (places.map fun p => (p.1, labelAt occurrences p.2)) ∧
    places.map Prod.fst = ((kinds repr storeId keysOf rows occurrences).filter
      fun r => r.1 ∈ (matchRows repr storeId keysOf rows occurrences).matched).map Prod.fst ∧
    (places.map Prod.snd).Nodup ∧
    (∀ p ∈ places, ∃ kind, (p.1, kind) ∈ kinds repr storeId keysOf rows occurrences ∧ keyAt occurrences p.2 ∈ kind) ∧
    ∀ k, (places.map Prod.snd).filter (fun i => keyAt occurrences i = k) <+: slotPlaces occurrences k := by
  have hinv := matchRows_inv repr storeId keysOf rows occurrences
  have hload : ∀ k, ∑ t ∈ typesOf repr storeId keysOf rows occurrences,
      (matchRows repr storeId keysOf rows occurrences).units t k ≤ (slotPlaces occurrences k).length := by
    intro k
    have h := hinv.inv.load_eq k
    simp only [reduceCtorEq, if_false, Nat.add_zero] at h
    rw [← h, length_slotPlaces]
    exact hinv.inv.load_le k
  obtain ⟨places, hassign, hrows, hnodup, hkinds⟩ := assign_spec (matchRows repr storeId keysOf rows occurrences)
    (slotPlaces_inj occurrences) hload (kinds repr storeId keysOf rows occurrences) (fun _ _ => 0) (fun _ => 0)
    (fun r hr => kinds_snd_mem repr storeId keysOf rows occurrences hr) (fun _ _ => Nat.zero_le _)
    (by intro t; rw [hinv.counts t]; simp) (by simp)
  refine ⟨places, ?_, hrows, hnodup, ?_, ?_⟩
  · have hslots : slots occurrences = fun k => (slotPlaces occurrences k).map (labelAt occurrences) :=
      funext (slots_places occurrences)
    rw [matchOccurrences, hslots, assign_map, hassign]
    rfl
  · intro p hp
    obtain ⟨kind, k, i, hmem, hk, -, ho⟩ := hkinds p hp
    have hkey := (mem_slotPlaces occurrences).mp (List.mem_of_getElem? ho)
    exact ⟨kind, hmem, hkey ▸ hk⟩
  · intro k
    have hprefix := assign_in_order (fun k o ho => (mem_slotPlaces occurrences).mp ho) _ _ _ _ places hassign k
    rwa [List.drop_zero] at hprefix

/-- With one key a row, each key's rows get its occurrences one for one. -/
theorem places_single {places : List (Int × Fin occurrences.length)}
    (hone : ∀ r ∈ kinds repr storeId keysOf rows occurrences, r.2.length ≤ 1)
    (hrows : places.map Prod.fst = ((kinds repr storeId keysOf rows occurrences).filter
      fun r => r.1 ∈ (matchRows repr storeId keysOf rows occurrences).matched).map Prod.fst)
    (hkinds : ∀ p ∈ places, ∃ kind, (p.1, kind) ∈ kinds repr storeId keysOf rows occurrences ∧
      keyAt occurrences p.2 ∈ kind)
    ( hprefix : ∀ k, (places.map Prod.snd).filter (fun i => keyAt occurrences i = k) <+: slotPlaces
      occurrences k) (k : K) :
    places.filter (fun p => keyAt occurrences p.2 = k) = (rowsOf storeId keysOf rows k).zip
    (slotPlaces occurrences k) := by
  have hseconds : (places.filter fun p => keyAt occurrences p.2 = k).map Prod.snd <+: slotPlaces occurrences k := by
    have h := hprefix k
    rw [List.filter_map] at h
    exact h
  by_cases hk : ∃ o, (o, k) ∈ occurrences
  · have hplain := plain_prefix repr storeId keysOf rows occurrences hone _ (Nat.le_refl _)
    rw [List.take_length] at hplain
    change Plain _ _ (matchRows repr storeId keysOf rows occurrences) at hplain
    have hnodup := kinds_nodup repr storeId keysOf rows occurrences
    have hkey : ∀ p ∈ places, keyAt occurrences p.2 = k ↔ (p.1, [k]) ∈ kinds repr storeId keysOf rows occurrences := by
      intro p hp
      obtain ⟨kind, hmem, hin⟩ := hkinds p hp
      have hlen : kind.length ≤ 1 := hone _ hmem
      constructor
      · intro he
        match kind, hlen, hmem, hin with
        | [x], _, hmem, hin =>
          obtain rfl : keyAt occurrences p.2 = x := by simpa using hin
          rwa [he] at hmem
      · intro h
        have heq : (p.1, kind) = (p.1, [k]) := List.inj_on_of_nodup_map hnodup hmem h rfl
        rw [(Prod.mk.inj heq).2] at hin
        simpa using hin
    have hfirsts : (places.filter fun p => keyAt occurrences p.2 = k).map Prod.fst =
        (rowsOf storeId keysOf rows k).take (slotPlaces occurrences k).length := by
      have hleft : (places.filter fun p => keyAt occurrences p.2 = k) =
          places.filter ((fun sid => decide ((sid, [k]) ∈ kinds repr storeId keysOf rows occurrences)) ∘ Prod.fst) := by
        apply List.filter_congr
        intro p hp
        simp only [Function.comp_apply, hkey p hp]
      have hright : ((kinds repr storeId keysOf rows occurrences).filter
            fun r => r.1 ∈ (matchRows repr storeId keysOf rows occurrences).matched).filter
            ((fun sid => decide ((sid, [k]) ∈ kinds repr storeId keysOf rows occurrences)) ∘ Prod.fst) =
          ((kinds repr storeId keysOf rows occurrences).filter fun r => r.2 = [k]).take
            (slots occurrences k).length := by
        rw [← hplain.served k, List.filter_filter]
        apply List.filter_congr
        intro r hr
        have hiff : (r.1, [k]) ∈ kinds repr storeId keysOf rows occurrences ↔ r.2 = [k] := by
          constructor
          · intro h
            have heq : r = (r.1, [k]) := List.inj_on_of_nodup_map hnodup hr h rfl
            rw [heq]
          · intro h
            rw [← h]
            exact hr
        simp only [Function.comp_apply, hiff, Bool.decide_and]
      rw [hleft, ← List.filter_map, hrows, List.filter_map, hright, List.map_take,
        kinds_single repr storeId keysOf rows occurrences hone hk, length_slotPlaces]
    have hsplit : places.filter (fun p => keyAt occurrences p.2 = k) =
        ((places.filter fun p => keyAt occurrences p.2 = k).map Prod.fst).zip
          ((places.filter fun p => keyAt occurrences p.2 = k).map Prod.snd) := by
      rw [List.zip_map']
      exact (List.map_id _).symm
    have hlen := congrArg List.length hfirsts
    rw [List.length_map, List.length_take] at hlen
    rw [hsplit, hfirsts, List.prefix_iff_eq_take.mp hseconds, List.length_map]
    exact zip_take_min _ _ rfl hlen
  · have hnone : slotPlaces occurrences k = [] := by
      rw [List.eq_nil_iff_forall_not_mem]
      intro i hi
      refine hk ⟨labelAt occurrences i, ?_⟩
      rw [← (mem_slotPlaces occurrences).mp hi]
      exact List.get_mem _ _
    rw [hnone, List.prefix_nil, List.map_eq_nil_iff] at hseconds
    rw [hnone, hseconds, List.zip_nil_right]

/-- The call returns, whether or not the budget is spent: its loops end by themselves, each row and
each occurrence is used once, and the rows of a key take the first occurrences of the key in view
order. -/
theorem match_occurrences_in_order :
    (∀ n sid own, (kinds repr storeId keysOf rows occurrences)[n]? = some (sid, own) →
      (∀ k ∈ own, (slots occurrences k).length ≤ (matchPrefix repr storeId keysOf rows occurrences n).load k) →
      (matchPrefix repr storeId keysOf rows occurrences n).spent = false →
      (searchAt repr storeId keysOf rows occurrences n own).Ended ∧
      (searchAt repr storeId keysOf rows occurrences n own).Rooted) ∧
    ∃ places : List (Int × Fin occurrences.length),
      matchOccurrences repr storeId keysOf rows occurrences =
      some (places.map fun p => (p.1, labelAt occurrences p.2)) ∧
      (places.map Prod.fst).Sublist (rows.map storeId).eraseDups ∧ (places.map Prod.fst).Nodup ∧
      (places.map Prod.snd).Nodup ∧
      (∀ p ∈ places, ∃ row ∈ rows, storeId row = p.1 ∧ keyAt occurrences p.2 ∈ keysOf row) ∧
      (∀ k, (places.map Prod.snd).filter (fun i => keyAt occurrences i = k) <+: slotPlaces occurrences k) ∧
      ((∀ sid k k', Admits storeId keysOf rows occurrences sid k →
      Admits storeId keysOf rows occurrences sid k' → k = k') →
        ∀ k, places.filter (fun p => keyAt occurrences p.2 = k) = (rowsOf storeId keysOf rows k).zip
        (slotPlaces occurrences k)) := by
  obtain ⟨places, hreturns, hrows, hnodup, hkinds, hprefix⟩ :=
    matchOccurrences_places repr storeId keysOf rows occurrences
  refine ⟨fun n sid own hrow hfull hspent => searchAt_ended repr storeId keysOf rows occurrences hrow hfull hspent,
    places, hreturns, ?_, ?_, hnodup, ?_, hprefix, ?_⟩
  · rw [hrows, ← kinds_fst repr storeId keysOf rows occurrences]
    exact List.filter_sublist.map Prod.fst
  · rw [hrows]
    exact (List.filter_sublist.map Prod.fst).nodup (kinds_nodup repr storeId keysOf rows occurrences)
  · intro p hp
    obtain ⟨kind, hmem, hin⟩ := hkinds p hp
    exact (((mem_kinds _ _ _ _ _ hmem).2 _).mp hin).2
  · intro hadmits k
    refine places_single repr storeId keysOf rows occurrences (fun r hr => ?_) hrows hkinds hprefix k
    obtain ⟨hnd, hmem⟩ := mem_kinds _ _ _ _ _ hr
    match r, hnd, hmem with
    | (_, []), _, _ => exact Nat.zero_le 1
    | (_, [_]), _, _ => exact Nat.le_refl 1
    | (sid, x :: y :: rest), hnd, hmem =>
      have hsame : x = y := hadmits sid x y ((hmem x).mp (by simp)) ((hmem y).mp (by simp))
      exact absurd (hsame ▸ List.mem_cons_self) (List.nodup_cons.mp hnd).1

end Call

end RecognitionMatching
