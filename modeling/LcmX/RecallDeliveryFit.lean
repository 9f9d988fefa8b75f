import LcmX.RecallDeliverySize

/-!
# What fitting keeps of a recall response

Stripping and popping are followed to the place where they stop: the first rung of a ladder of ever fewer hits whose
text fits. The blocks are written again on that rung. Only the delta can make the text longer there, when the hits
that fit have lost every exact ref.
-/
namespace RecallDelivery

open List (Forall₂)

variable {cap : Nat} {call : Call} {s r : Response} {d : Draft}

theorem Draft.encode_response (d : Draft) : encode d.response = d := by
  obtain ⟨r, encoded, sound⟩ := d
  subst sound
  rfl

theorem Draft.length_encoded (d : Draft) : d.encoded.length = d.response.size := congrArg List.length d.sound

/-! ## Hits without their event time -/

theorem lookup_filter (p : String → Bool) (ms : Members) (key : String) :
    (ms.filter fun m => p m.1).lookup key = if p key then ms.lookup key else none := by
  induction ms with
  | nil => simp
  | cons m ms ih =>
    obtain ⟨k, v⟩ := m
    by_cases hk : key = k
    · subst hk
      cases hp : p key <;> simp [hp, ih]
    · have hbeq : (key == k) = false := by simpa using hk
      cases hp : p k <;> simp [hp, ih, List.lookup_cons, hbeq]

theorem lookup_withoutEventTime (hit : Hit) (key : String) :
    (withoutEventTime hit).lookup key = if isEventTimeKey (timeUncertain hit) key then none else hit.lookup key := by
  have hfilter := lookup_filter (fun key => !isEventTimeKey (timeUncertain hit) key) hit key
  cases hkey : isEventTimeKey (timeUncertain hit) key <;> simpa [hkey, withoutEventTime] using hfilter

theorem timeUncertain_withoutEventTime (hit : Hit) : timeUncertain (withoutEventTime hit) = false := by
  rw [timeUncertain, lookup_withoutEventTime, if_pos (by simp [isEventTimeKey, eventTimeKeys])]
  rfl

@[simp] theorem withoutEventTime_idem (hit : Hit) : withoutEventTime (withoutEventTime hit) = withoutEventTime hit := by
  rw [withoutEventTime, timeUncertain_withoutEventTime, List.filter_eq_self]
  intro m hm
  have hkept := (List.mem_filter.mp hm).2
  simp only [isEventTimeKey, Bool.not_eq_true', Bool.or_eq_false_iff, Bool.false_and, Bool.or_false] at hkept ⊢
  exact hkept.1

theorem withoutEventTime_eq_self {hit : Hit} (h : hasEventTime hit = false) : withoutEventTime hit = hit := by
  have hnone : ∀ key ∈ eventTimeKeys, hit.lookup key = none := fun key hkey =>
    Option.not_isSome_iff_eq_none.mp (List.any_eq_false.mp h key hkey)
  have huncertain : timeUncertain hit = false := by
    rw [timeUncertain, hnone _ (by decide)]
    rfl
  rw [withoutEventTime, huncertain, List.filter_eq_self]
  intro m hm
  simp only [isEventTimeKey, Bool.false_and, Bool.or_false, Bool.not_eq_true', decide_eq_false_iff_not]
  intro hkey
  simpa using List.lookup_eq_none_iff.mp (hnone m.1 hkey) m hm

theorem exactRefs_map (hits : List Hit) : exactRefs (hits.map withoutEventTime) = exactRefs hits := by
  rw [exactRefs, exactRefs, List.filterMap_map]
  refine List.filterMap_congr fun hit _ => ?_
  rw [Function.comp_apply, lookup_withoutEventTime, if_neg (by simp [isEventTimeKey, eventTimeKeys])]

theorem expandedCount_map (hits : List Hit) : expandedCount (hits.map withoutEventTime) = expandedCount hits := by
  rw [expandedCount, expandedCount, List.countP_map]
  refine List.countP_congr fun hit _ => ?_
  rw [Function.comp_apply, lookup_withoutEventTime, if_neg (by simp [isEventTimeKey, eventTimeKeys])]

theorem bare_bare (r : Response) : r.bare.bare = r.bare := by
  simp [Response.bare, Response.unmarked]

/-- A hit as it was ranked, or without its event time. -/
def Kept (hit kept : Hit) : Prop := kept = hit ∨ kept = withoutEventTime hit

theorem kept_self (hits : List Hit) : Forall₂ Kept hits hits := List.forall₂_same.mpr fun _ _ => .inl rfl

theorem kept_map (hits : List Hit) : Forall₂ Kept hits (hits.map withoutEventTime) := by
  rw [List.forall₂_map_right_iff]
  exact List.forall₂_same.mpr fun _ _ => .inr rfl

/-! ## Stripping -/

/-- The reason of the marker once every hit is stripped. -/
def Response.deferred (r : Response) : Option String :=
  r.unavailable.or (if r.hits.any hasEventTime then some "response_cap" else none)

/-- The hits from the given rank on have lost their event time. -/
structure Stripped (s : Response) (i : Nat) (r : Response) : Prop where
  hits : r.hits = s.hits.take i ++ (s.hits.drop i).map withoutEventTime
  unavailable : r.unavailable = s.unavailable.or
    (if (s.hits.drop i).any hasEventTime then some "response_cap" else none)
  bare : r.bare = s.bare

theorem stripped_start (s : Response) : Stripped s s.hits.length s := ⟨by simp, by simp, rfl⟩

theorem Stripped.kept {i : Nat} (h : Stripped s i r) : Forall₂ Kept s.hits r.hits := by
  have happend : Forall₂ Kept (s.hits.take i ++ s.hits.drop i)
      (s.hits.take i ++ (s.hits.drop i).map withoutEventTime) :=
    List.rel_append (kept_self _) (kept_map _)
  rwa [List.take_append_drop, ← h.hits] at happend

theorem Stripped.all (h : Stripped s 0 r) : r.unmarked = s.bare ∧ r.unavailable = s.deferred := by
  refine ⟨?_, by simpa [Response.deferred] using h.unavailable⟩
  have hhits : r.hits.map withoutEventTime = r.hits := by simp [h.hits]
  rw [← h.bare, Response.bare, hhits]
  rfl

theorem unmarked_eq_self (h : r.unavailable = none) : r.unmarked = r := by
  have hnone := Option.or_eq_none_iff.mp h
  obtain ⟨⟩ := r
  simp only at hnone
  simp only [Response.unmarked, hnone.1, hnone.2]

theorem unavailable_strip (r : Response) (i : Nat) :
    (r.strip i).unavailable = r.unavailable.or (some "response_cap") := by
  cases hr : r.unavailable with
  | none => simp [Response.unavailable, Response.strip, Option.or_eq_none_iff.mp hr]
  | some reason =>
    have hsome : r.unavailable.isSome = true := by rw [hr]; rfl
    rw [Response.unavailable, Response.strip, if_pos hsome]
    exact hr

theorem bare_strip (r : Response) (i : Nat) : (r.strip i).bare = r.bare := by
  have hhits : (r.hits.modify i withoutEventTime).map withoutEventTime = r.hits.map withoutEventTime := by
    refine List.ext_getElem? fun j => ?_
    rw [List.getElem?_map, List.getElem?_map, List.getElem?_modify]
    by_cases hj : i = j <;> cases hget : r.hits[j]? <;> simp [hj]
  simp only [Response.bare, Response.unmarked, Response.strip, hhits]

theorem Stripped.step {i : Nat} (hi : i < s.hits.length) (h : Stripped s (i + 1) r) :
    (hasEventTime (r.hits.getD i []) = true → Stripped s i (r.strip i)) ∧
    (hasEventTime (r.hits.getD i []) = false → Stripped s i r) := by
  have hget : r.hits[i]? = some s.hits[i] := by
    rw [h.hits, List.getElem?_append_left (by simp; omega), List.getElem?_take_of_lt (by omega),
      List.getElem?_eq_getElem hi]
  have hdrop : s.hits.drop i = s.hits[i] :: s.hits.drop (i + 1) := List.drop_eq_getElem_cons hi
  have htake : s.hits.take (i + 1) = s.hits.take i ++ [s.hits[i]] := List.take_succ_eq_append_getElem hi
  rw [List.getD_eq_getElem?_getD, hget, Option.getD_some]
  constructor
  · intro htime
    refine ⟨?_, ?_, (bare_strip r i).trans h.bare⟩
    · have hlen : (s.hits.take i).length = i := List.length_take_of_le hi.le
      rw [Response.strip, h.hits, htake, hdrop, List.append_assoc, List.modify_eq_take_drop,
        List.take_left' hlen, List.drop_left' hlen]
      rfl
    · rw [unavailable_strip, h.unavailable, hdrop, List.any_cons, htime, Bool.true_or, if_pos rfl]
      cases s.unavailable <;> split <;> rfl
  · intro htime
    refine ⟨?_, ?_, h.bare⟩
    · rw [h.hits, htake, hdrop, List.map_cons, withoutEventTime_eq_self htime, List.append_assoc, List.singleton_append]
    · rw [hdrop, List.any_cons, htime, Bool.false_or]
      exact h.unavailable

theorem stripHits_stripped {i : Nat} (hi : i ≤ s.hits.length) (h : Stripped s i d.response) :
    ∃ j, Stripped s j (stripHits cap i d).response ∧ (cap < (stripHits cap i d).encoded.length → j = 0) := by
  induction i generalizing d with
  | zero => exact ⟨0, h, fun _ => rfl⟩
  | succ i ih =>
    rw [stripHits]
    split
    · next hfits => exact ⟨i + 1, h, fun hover => absurd hfits (Nat.not_le.mpr hover)⟩
    · cases htime : hasEventTime (d.response.hits.getD i []) with
      | true => exact ih (by omega) ((h.step hi).1 htime)
      | false => exact ih (by omega) ((h.step hi).2 htime)

/-- Either the text fits with all hits, or nothing is left to strip. -/
theorem fitEventTime_cases (cap : Nat) (s : Response) :
    ((fitEventTime cap s).1.response.size ≤ cap ∧ Forall₂ Kept s.hits (fitEventTime cap s).1.response.hits ∧
      (fitEventTime cap s).1.response.bare = s.bare) ∨ fitEventTime cap s = (encode s.bare, s.deferred) := by
  obtain ⟨j, hj, hzero⟩ := @stripHits_stripped cap s (encode s) _ (le_refl _) (stripped_start s)
  rw [fitEventTime]
  by_cases hover : cap < (stripHits cap s.hits.length (encode s)).encoded.length
  · obtain rfl := hzero hover
    obtain ⟨hunmarked, hdeferred⟩ := hj.all
    refine .inr ?_
    split
    · rw [hunmarked, hdeferred]
    · next hnone =>
      rw [not_and_or, or_iff_right (not_not_intro hover), Option.not_isSome_iff_eq_none] at hnone
      rw [← hdeferred, hnone, ← hunmarked, unmarked_eq_self hnone, Draft.encode_response]
  · rw [if_neg fun hand => hover hand.1]
    rw [Draft.length_encoded] at hover
    exact .inl ⟨Nat.not_lt.mp hover, hj.kept, hj.bare⟩

/-! ## Popping -/

/-- The last rung of a response that a loop of at most so many pops reaches: the first whose text
fits, or the bottom. -/
structure Stops (cap : Nat) (r : Response) (t : Nat) : Prop where
  le : t ≤ r.units
  exceeds : ∀ n < t, cap < (Response.pop^[n] r).size
  last : (Response.pop^[t] r).size ≤ cap ∨ t = r.units

theorem Stops.unique {t t' : Nat} (h : Stops cap r t) (h' : Stops cap r t') : t = t' := by
  have hle : ∀ {a b}, Stops cap r a → Stops cap r b → a ≤ b := by
    intro a b ha hb
    by_contra hlt
    have hover := ha.exceeds b (by omega)
    have := ha.le
    cases hb.last <;> omega
  exact Nat.le_antisymm (hle h h') (hle h' h)

/-- The loop is so many pops, up to where it stops. -/
theorem popLoop_stops (cap : Nat) (r : Response) : ∃ t, Stops cap r t ∧
    popLoop cap (encode r) = encode (Response.pop^[t] r) := by
  induction hn : r.units generalizing r with
  | zero =>
    have hempty : r.hits = [] ∧ r.leads = [] := by simpa [Response.units] using hn
    refine ⟨0, ⟨Nat.zero_le _, by simp, .inr hn.symm⟩, ?_⟩
    rw [popLoop, if_neg (by simp [encode, hempty])]
    rfl
  | succ n ih =>
    rw [popLoop]
    split
    · next h =>
      obtain ⟨t, ht, heq⟩ := ih r.pop (by rw [Response.units_pop]; omega)
      refine ⟨t + 1, ⟨?_, ?_, ?_⟩, heq⟩
      · have := ht.le
        rw [Response.units_pop] at this
        omega
      · rintro (- | k) hk
        · exact h.1
        · exact ht.exceeds k (by omega)
      · refine ht.last.imp_right fun hunits => ?_
        rw [Response.units_pop] at hunits
        omega
    · next h =>
      refine ⟨0, ⟨Nat.zero_le _, by simp, .inl ?_⟩, rfl⟩
      by_contra hover
      refine h ⟨Nat.not_le.mp hover, ?_⟩
      by_contra hnone
      have hempty : r.hits = [] ∧ r.leads = [] := by simpa [encode] using hnone
      simp [Response.units, hempty] at hn

/-- What no pop touches is left by any number of them. -/
theorem iterate_pop {α : Type} (f : Response → α) (h : ∀ r hits leads total flag count, f { r with
      hits := hits, summaryLeads := leads, totalResults := total, responseTruncated :=
  flag, expandedHitCount := count } = f r)
    (t : Nat) (r : Response) : f (Response.pop^[t] r) = f r := by
  induction t with
  | zero => rfl
  | succ t ih =>
    rw [Function.iterate_succ_apply', ← ih, Response.pop]
    split
    · exact h (Response.pop^[t] r) _ _ _ _ _
    · exact h (Response.pop^[t] r) _ _ _ _ _

theorem hits_pop (r : Response) : r.pop.hits = r.hits.take (r.hits.length - 1) := by
  simp only [Response.pop]
  split
  · exact List.dropLast_eq_take
  · next h => simp [not_not.mp h]

theorem hits_iterate_pop (t : Nat) (r : Response) : (Response.pop^[t] r).hits = r.hits.take (r.hits.length - t) := by
  induction t with
  | zero => simp
  | succ t ih =>
    rw [Function.iterate_succ_apply', hits_pop, ih, List.take_take, List.length_take]
    congr 1
    omega

structure Counted (r : Response) : Prop where
  total : r.totalResults = r.hits.length
  expanded : r.expandedHitCount = expandedCount r.hits

theorem Counted.iterate_pop (h : Counted r) (t : Nat) : Counted (Response.pop^[t] r) := by
  cases t with
  | zero => exact h
  | succ t =>
    rw [Function.iterate_succ_apply']
    exact ⟨rfl, rfl⟩

/-! ## The whole fitting -/

namespace Response

/-- Where the cap loop starts when not even the bare response fits. -/
def start (r : Response) : Response := (r.setDelivered false).bare.cutQuery

def rung (r : Response) (t : Nat) : Response := pop^[t] r.start

/-- The response whose delta and anchor tell of its own hits. -/
def settle (r : Response) (first : Hit) : Response := r.recountDelta.recheckAnchor first

end Response

/-- A rung with the marker back on it where it fits. -/
def resting (call : Call) (r : Response) (t : Nat) : Response :=
  (putBack call.responseCharCap r.deferred (encode (r.rung t))).response

/-- What delivery builds a response with. -/
structure WellFormed (r : Response) : Prop where
  counted : Counted r
  delta : ∀ d ∈ r.delta, d.recount (exactRefs r.hits) = d
  unpublished : r.adjacentReply = none

/-- What is sent tells of the hits in it, they are the first of the ranked ones, and no fewer than without any
event time. -/
structure Describes (call : Call) (r : Response) (out : Draft) : Prop where
  text : out.encoded = out.response.dumps
  counted : Counted out.response
  delta : ∀ d ∈ out.response.delta, d.recount (exactRefs out.response.hits) = d
  anchor : ∀ a ∈ out.response.anchor, a.fired = true →
    a.delivered = some (ftsAnchorDelivered out.response.hits call.ftsFirst)
  receipts : ∀ pairs ∈ out.response.adjacentReply,
    pairs = deliveredAdjacentReceipts out.response.hits call.adjacentReply
  ranked : Forall₂ Kept (r.hits.take out.response.hits.length) out.response.hits
  count : (fitAnswerReadyResponse call r.bare).response.hits.length ≤ out.response.hits.length

/-- What the blocks are written on again. -/
structure Reduced (r m : Response) : Prop where
  counted : Counted m
  delta : m.delta = r.delta
  unpublished : m.adjacentReply = none
  sized : m.setDelivered false = m
  ranked : Forall₂ Kept (r.hits.take m.hits.length) m.hits

theorem sized_of_anchor {m : Response} (h : m.anchor = (r.setDelivered false).anchor) : m.setDelivered false = m := by
  obtain ⟨⟩ := m
  simp only [Response.setDelivered] at h ⊢
  subst h
  simp only [Option.map_map]
  congr 2
  funext a
  by_cases ha : a.fired = true <;> simp [ha]

/-- What is offered is taken only if it fits. -/
theorem putBack_encode (cap : Nat) (reason : Option String) (r : Response) :
    ∃ late, (putBack cap reason (encode r)).response = { r with lateUnavailable := late } ∧
      (late = r.lateUnavailable ∨ ({ r with lateUnavailable := late } : Response).size ≤ cap) := by
  cases reason with
  | none => exact ⟨r.lateUnavailable, rfl, .inl rfl⟩
  | some text =>
    simp only [putBack, offer]
    split
    · next hfits => exact ⟨some text, rfl, .inr hfits⟩
    · exact ⟨r.lateUnavailable, rfl, .inl rfl⟩

theorem counted_bare (h : Counted r) : Counted r.bare :=
  ⟨h.total.trans (List.length_map _).symm, h.expanded.trans (expandedCount_map r.hits).symm⟩

theorem counted_of_bare {m : Response} (hm : m.bare = r.bare) (hcounted : Counted r) : Counted m := by
  have hbare := counted_bare hcounted
  rw [← hm] at hbare
  exact ⟨hbare.total.trans (List.length_map _), hbare.expanded.trans (expandedCount_map m.hits)⟩

/-- A response that keeps all hits, with or without the marker. -/
theorem reduced_of_bare {m : Response} (hr : WellFormed r) (hkept : Forall₂ Kept r.hits m.hits)
    (hbare : m.bare = (r.setDelivered false).bare) : Reduced r m := by
  have hlen := hkept.length_eq
  refine ⟨?_, ?_, ?_, ?_, ?_⟩
  · exact counted_of_bare hbare ⟨hr.counted.total, hr.counted.expanded⟩
  · exact (congrArg Response.delta hbare :)
  · exact (congrArg Response.adjacentReply hbare :).trans hr.unpublished
  · exact @sized_of_anchor r m (congrArg Response.anchor hbare :)
  · rwa [← hlen, List.take_length]

theorem reduced_rung (hr : WellFormed r) (t : Nat) : Reduced r (r.rung t) := by
  have hstart : Counted r.start := ⟨(counted_bare hr.counted).total, (counted_bare hr.counted).expanded⟩
  refine ⟨hstart.iterate_pop t, iterate_pop Response.delta (fun _ _ _ _ _ _ => rfl) t _, ?_, ?_, ?_⟩
  · exact (iterate_pop Response.adjacentReply (fun _ _ _ _ _ _ => rfl) t _).trans hr.unpublished
  · exact @sized_of_anchor r _ (iterate_pop Response.anchor (fun _ _ _ _ _ _ => rfl) t _)
  · have hhits : (r.rung t).hits = (r.hits.map withoutEventTime).take
        ((r.hits.map withoutEventTime).length - t) := hits_iterate_pop t _
    rw [hhits, List.length_take, List.length_map, Nat.min_eq_left (Nat.sub_le _ _), ← List.map_take]
    exact kept_map _

theorem Reduced.putBack {m : Response} (h : Reduced r m) (cap : Nat) (reason : Option String) :
    Reduced r (putBack cap reason (encode m)).response := by
  obtain ⟨late, heq, -⟩ := putBack_encode cap reason m
  rw [heq]
  exact ⟨⟨h.counted.total, h.counted.expanded⟩, h.delta, h.unpublished,
    congrArg (fun m => { m with lateUnavailable := late }) h.sized, h.ranked⟩

/-- The response keeps all its hits, or is the rung where the ladder stops. -/
theorem fit_cases (call : Call) (hr : WellFormed r) : ∃ m, Reduced r m ∧
    fitAnswerReadyResponse call r = publishReceipts call (encode (m.settle call.ftsFirst)) ∧
    ((m.size ≤ call.responseCharCap ∧ m.hits.length = r.hits.length ∧
    (r.setDelivered false).bare.size ≤ call.responseCharCap) ∨
      (call.responseCharCap < (r.setDelivered false).bare.size ∧ ∃ t,
      Stops call.responseCharCap r.start t ∧ m = resting call r t)) := by
  let s := r.setDelivered false
  let cap := call.responseCharCap
  have hfit : ∀ d reason, stripToFit cap (encode s) = (d, reason) → fitAnswerReadyResponse call r = publishReceipts call
      (encode ((putBack cap reason
        (popLoop cap (if cap < d.encoded.length then encode d.response.cutQuery else d))).response.settle
        call.ftsFirst)) := by
    intro d reason h
    rw [fitAnswerReadyResponse, h]
    rfl
  by_cases hbare : s.bare.size ≤ cap
  · -- Stripping was enough, or there was nothing to do: no later step changes the hits.
    have hstage : ∃ d reason, stripToFit cap (encode s) = (d, reason) ∧
        d.response.size ≤ cap ∧ Forall₂ Kept s.hits d.response.hits ∧ d.response.bare = s.bare := by
      by_cases hover : cap < (encode s).encoded.length
      · rcases fitEventTime_cases cap s with hkept | heq
        · exact ⟨_, _, if_pos hover, hkept⟩
        · exact ⟨_, _, (if_pos hover).trans heq, hbare, kept_map _, bare_bare s⟩
      · exact ⟨_, _, if_neg hover, Nat.not_lt.mp hover, kept_self _, rfl⟩
    obtain ⟨d, reason, hd, hsize, hkept, hsame⟩ := hstage
    have hfits : ¬ cap < d.encoded.length := by
      rw [Draft.length_encoded]
      exact Nat.not_lt.mpr hsize
    refine ⟨_, (reduced_of_bare hr hkept hsame).putBack cap reason, ?_, .inl ?_⟩
    · rw [hfit d reason hd, if_neg hfits, popLoop, if_neg fun hand => hfits hand.1, Draft.encode_response]
    · obtain ⟨late, heq, hlate⟩ := putBack_encode cap reason d.response
      rw [heq]
      refine ⟨?_, hkept.length_eq.symm, hbare⟩
      rcases hlate with rfl | hle
      · exact hsize
      · exact hle
  · rw [Nat.not_le] at hbare
    have hover : cap < (encode s).encoded.length := hbare.trans_le (size_bare_le s)
    have hstrip : stripToFit cap (encode s) = (encode s.bare, s.deferred) := by
      rw [stripToFit, if_pos hover]
      refine (fitEventTime_cases cap s).resolve_left fun hkept => ?_
      exact Nat.not_le.mpr hbare (hkept.2.2 ▸ (size_bare_le _).trans hkept.1)
    obtain ⟨t, ht, hloop⟩ := popLoop_stops cap r.start
    refine ⟨resting call r t, (reduced_rung hr t).putBack cap r.deferred, ?_, .inr ⟨hbare, t, ht, rfl⟩⟩
    rw [hfit _ _ hstrip, if_pos (show cap < (encode s.bare).encoded.length from hbare),
      show (encode s.bare).response.cutQuery = r.start from rfl, hloop]
    rfl

theorem publish_encode (call : Call) (r : Response) :
    ∃ receipts, (publishReceipts call (encode r)).response = { r with adjacentReply := receipts } ∧
      (receipts = r.adjacentReply ∨ receipts = some (deliveredAdjacentReceipts r.hits call.adjacentReply) ∧
        ({ r with adjacentReply := receipts } : Response).size ≤ call.responseCharCap) := by
  simp only [publishReceipts, offer]
  split
  · exact ⟨r.adjacentReply, rfl, .inl rfl⟩
  · split
    · next hfits => exact ⟨_, rfl, .inr ⟨rfl, hfits⟩⟩
    · exact ⟨r.adjacentReply, rfl, .inl rfl⟩

/-- Receipts never cost a text its place under the cap. -/
theorem length_publish_le_iff (h : r.adjacentReply = none) :
    (publishReceipts call (encode r)).encoded.length ≤ call.responseCharCap ↔ r.size ≤ call.responseCharCap := by
  obtain ⟨receipts, heq, hreceipts⟩ := publish_encode call r
  rw [Draft.length_encoded, heq]
  rcases hreceipts with rfl | ⟨rfl, hle⟩
  · rfl
  · exact iff_of_true hle ((size_lt_receipts _ h).le.trans hle)

theorem hits_publish (call : Call) (r : Response) : (publishReceipts call (encode r)).response.hits = r.hits := by
  obtain ⟨receipts, heq, -⟩ := publish_encode call r
  rw [heq]

theorem hits_resting (call : Call) (r : Response) (t : Nat) : (resting call r t).hits = (r.rung t).hits := by
  obtain ⟨late, heq, -⟩ := putBack_encode call.responseCharCap r.deferred (r.rung t)
  rw [resting, heq]

theorem bare_setDelivered (r : Response) :
    (r.bare.setDelivered false).bare = (r.setDelivered false).bare := bare_bare (r.setDelivered false)

theorem start_bare (r : Response) : r.bare.start = r.start := by rw [Response.start, bare_setDelivered, Response.start]

theorem wellFormed_bare (h : WellFormed r) : WellFormed r.bare :=
  ⟨counted_bare h.counted, fun d hd => (congrArg d.recount (exactRefs_map r.hits)).trans (h.delta d hd), h.unpublished⟩

/-- The fitted response describes the hits it carries. -/
theorem describes_fit (call : Call) (hr : WellFormed r) : Describes call r (fitAnswerReadyResponse call r) := by
  obtain ⟨m, hred, hfit, hcase⟩ := fit_cases call hr
  have hcount : (fitAnswerReadyResponse call r.bare).response.hits.length ≤ m.hits.length := by
    obtain ⟨m', hred', hfit', hcase'⟩ := fit_cases call (wellFormed_bare hr)
    have hle : m'.hits.length ≤ r.hits.length := by
      have hlen := hred'.ranked.length_eq
      rw [List.length_take, Response.bare, List.length_map] at hlen
      omega
    rw [hfit', hits_publish]
    cases hcase with
    | inl hall => exact hle.trans_eq hall.2.1.symm
    | inr hstop =>
      obtain ⟨hover, t, ht, rfl⟩ := hstop
      cases hcase' with
      | inl hall =>
        rw [bare_setDelivered] at hall
        exact absurd hall.2.2 (Nat.not_le.mpr hover)
      | inr hstop' =>
        obtain ⟨-, t', ht', rfl⟩ := hstop'
        rw [start_bare] at ht'
        obtain rfl := ht.unique ht'
        refine le_of_eq ?_
        rw [show ((resting call r.bare t).settle call.ftsFirst).hits =
          (resting call r.bare t).hits from rfl, hits_resting, hits_resting,
          Response.rung, Response.rung, start_bare]
  obtain ⟨receipts, heq, hreceipts⟩ := publish_encode call (m.settle call.ftsFirst)
  refine ⟨Draft.sound _, ?_, ?_, ?_, ?_, ?_, ?_⟩ <;> rw [hfit, heq]
  · exact ⟨hred.counted.total, hred.counted.expanded⟩
  · intro d hd
    obtain ⟨d', -, rfl⟩ := Option.map_eq_some_iff.mp hd
    rfl
  · intro a ha hfired
    obtain ⟨a', -, rfl⟩ := Option.map_eq_some_iff.mp ha
    by_cases ha' : a'.fired = true
    · rw [if_pos ha']
      rfl
    · rw [if_neg ha'] at hfired
      exact absurd hfired ha'
  · intro pairs hpairs
    rcases hreceipts with rfl | ⟨rfl, -⟩
    · cases hred.unpublished.symm.trans hpairs
    · exact (Option.some.inj hpairs).symm
  · exact hred.ranked
  · exact hcount

theorem exactRefs_kept {hits hits' : List Hit} (h : Forall₂ Kept hits hits') : exactRefs hits' = exactRefs hits := by
  have hmap : hits'.map withoutEventTime = hits.map withoutEventTime := by
    induction h with
    | nil => rfl
    | cons hkept _ ih => rcases hkept with rfl | rfl <;> simp [ih]
  rw [← exactRefs_map hits', hmap, exactRefs_map]

theorem recountDelta_eq_self {m : Response} (h : ∀ d ∈ m.delta, d.recount (exactRefs m.hits) = d) :
    m.recountDelta = m := by
  obtain ⟨⟩ := m
  simp only [Response.recountDelta] at h ⊢
  congr 1
  exact (Option.map_congr fun d hd => h d hd).trans (congrFun Option.map_id _)

/-! ## The cap -/

/-- The ladder's bottom: no hit and no lead is left. -/
def Response.bottom (r : Response) : Response := r.rung r.start.units

theorem units_iterate_pop (t : Nat) (r : Response) : (Response.pop^[t] r).units = r.units - t := by
  induction t with
  | zero => rfl
  | succ t ih =>
    rw [Function.iterate_succ_apply', Response.units_pop, ih]
    omega

theorem bottom_empty (r : Response) : r.bottom.hits = [] ∧ r.bottom.leads = [] := by
  have hunits : r.bottom.units = 0 := by rw [Response.bottom, Response.rung, units_iterate_pop, Nat.sub_self]
  simpa [Response.units] using hunits

/-- The response had exact refs, the hits of the first rung that fits have none, and the block
without refs is longer than the one with them by more than the cap leaves: instead of the count, the
list, `true` and `null` it says `0`, `[]`, `false` and `"no_novel_exact_ref"`, which are twenty
characters more. -/
def LosesRefs (call : Call) (r : Response) : Prop :=
  call.responseCharCap < (r.setDelivered false).bare.size ∧ ∃ d ∈ r.delta, d.novelRefs ≠ [] ∧ ∃ t,
    Stops call.responseCharCap r.start t ∧ (r.rung t).size ≤ call.responseCharCap ∧ exactRefs (r.rung t).hits = [] ∧
      call.responseCharCap + len (.int d.novelRefCount) + len (.arr d.novelRefs) <
        ((resting call r t).recheckAnchor call.ftsFirst).size + 20

theorem resting_size (call : Call) (r : Response) (t : Nat) :
    ((resting call r t).size ≤ call.responseCharCap ↔ (r.rung t).size ≤ call.responseCharCap) ∧
      (call.responseCharCap < (r.rung t).size → resting call r t = r.rung t) := by
  have hlate : (r.rung t).lateUnavailable = none := iterate_pop Response.lateUnavailable (fun _ _ _ _ _ _ => rfl) t _
  obtain ⟨late, heq, hcase⟩ := putBack_encode call.responseCharCap r.deferred (r.rung t)
  rw [resting, heq]
  cases late with
  | none =>
    rw [← hlate]
    exact ⟨Iff.rfl, fun _ => rfl⟩
  | some text =>
    have hle := hcase.resolve_left (by simp [hlate])
    have hmarked := (size_lt_marked text hlate).le.trans hle
    exact ⟨iff_of_true hle hmarked, fun hover => absurd hmarked (Nat.not_le.mpr hover)⟩

theorem novel_of_recount {d : Delta} {refs : List Json.Value} (h : d.recount refs = d) :
    d.novelRefs = refs ∧ d.novelRefCount = refs.length :=
  ⟨(congrArg Delta.novelRefs h).symm, (congrArg Delta.novelRefCount h).symm⟩

/-- The delta of the hits that are left, against the one the response came with. -/
theorem length_recount {d : Delta} {hits : List Hit} (hd : d.recount (exactRefs hits) = d) (refs : List Json.Value) :
    len (.obj (d.recount refs).members) + (len (.int d.novelRefCount) +
        len (.arr d.novelRefs) + if d.novelRefs = [] then 25 else 8) =
      len (.obj d.members) + (len (.int refs.length) + len (.arr refs) +
        if refs = [] then 25 else 8) := by
  have hself := length_delta d (exactRefs hits)
  have hother := length_delta d refs
  rw [hd, ← (novel_of_recount hd).1] at hself
  rw [(novel_of_recount hd).1, ← (novel_of_recount hd).2] at hself
  rw [(novel_of_recount hd).1] at hother ⊢
  omega

/-- Fewer refs make a shorter delta, unless none is left. -/
theorem length_recount_le {d : Delta} {hits : List Hit} (hd : d.recount (exactRefs hits) = d) {refs : List Json.Value}
    (hsub : refs.Sublist d.novelRefs) (hne : refs ≠ []) :
    len (.obj (d.recount refs).members) ≤ len (.obj d.members) := by
  have heq := length_recount hd refs
  have hcount := @length_int_le refs.length d.novelRefCount (by
    rw [(novel_of_recount hd).2, ← (novel_of_recount hd).1]
    exact hsub.length_le)
  have harr := length_arr_le hsub
  have hnovel : d.novelRefs ≠ [] := by
    intro hnil
    rw [hnil, List.sublist_nil] at hsub
    exact hne hsub
  rw [if_neg hne, if_neg hnovel] at heq
  omega

theorem size_settle {m : Response} {d : Delta} (first : Hit) (h : m.delta = some d) :
    (m.settle first).size + len (.obj d.members) =
      (m.recheckAnchor first).size + len (.obj (d.recount (exactRefs m.hits)).members) :=
  @size_recountDelta (m.recheckAnchor first) d h

theorem settle_size_le {m : Response} {first : Hit} (hred : Reduced r m)
    (hdelta : ∀ d ∈ r.delta, len (.obj (d.recount (exactRefs m.hits)).members) ≤ len (.obj d.members)) :
    (m.settle first).size ≤ m.size := by
  have hanchor : (m.recheckAnchor first).size ≤ m.size := size_setDelivered_le _ hred.sized
  cases hd : r.delta with
  | none =>
    have hself : (m.recheckAnchor first).recountDelta = m.recheckAnchor first := recountDelta_eq_self (by
      intro d hmem
      exact absurd ((hred.delta.trans hd).symm.trans hmem) (by simp))
    exact (congrArg Response.size hself).trans_le hanchor
  | some d =>
    have hsize := size_settle first (hred.delta.trans hd)
    have hle := hdelta d hd
    omega

theorem length_fit_le_iff (call : Call) (hr : WellFormed r)
    (hbase : (r.bottom.settle call.ftsFirst).size ≤ call.responseCharCap) :
    (fitAnswerReadyResponse call r).encoded.length ≤ call.responseCharCap ↔ ¬ LosesRefs call r := by
  obtain ⟨m, hred, hfit, hcase⟩ := fit_cases call hr
  have hunpublished : (m.settle call.ftsFirst).adjacentReply = none := hred.unpublished
  have hrefs : exactRefs m.hits = exactRefs (r.hits.take m.hits.length) := exactRefs_kept hred.ranked
  rw [hfit, length_publish_le_iff hunpublished]
  cases hcase with
  | inl hall =>
    -- All hits are there, so the delta is the one the response came with.
    refine iff_of_true ((settle_size_le hred fun d hd => ?_).trans hall.1) fun hloses => absurd
      hall.2.2 (Nat.not_le.mpr hloses.1)
    rw [hrefs, hall.2.1, List.take_length, hr.delta d hd]
  | inr hstop =>
    obtain ⟨hover, t, ht, rfl⟩ := hstop
    rw [hits_resting] at hrefs
    have hsub : (exactRefs (r.rung t).hits).Sublist (exactRefs r.hits) := hrefs ▸ (List.take_sublist _ _).filterMap _
    by_cases hfits : (r.rung t).size ≤ call.responseCharCap
    · have hrest := (resting_size call r t).1.mpr hfits
      by_cases hlost : ∃ d ∈ r.delta, d.novelRefs ≠ [] ∧ exactRefs (r.rung t).hits = []
      · obtain ⟨d, hd, hne, hnil⟩ := hlost
        have hsize := size_settle call.ftsFirst (hred.delta.trans hd)
        have hlen := length_recount (hr.delta d hd) []
        rw [hits_resting, hnil] at hsize
        rw [if_neg hne, if_pos rfl, show len (.int ([] : List Json.Value).length) = 1 by decide,
          show len (.arr []) = 2 by decide] at hlen
        constructor
        · rintro hle ⟨-, d', hd', -, t', ht', -, -, hlt⟩
          obtain rfl := ht.unique ht'
          obtain rfl := Option.some.inj (hd.symm.trans hd')
          omega
        · intro hloses
          by_contra hlt
          exact hloses ⟨hover, d, hd, hne, t, ht, hfits, hnil, by omega⟩
      · refine iff_of_true ((settle_size_le hred fun d hd => ?_).trans hrest) ?_
        · have hnovel := (novel_of_recount (hr.delta d hd)).1.symm
          rw [hits_resting]
          by_cases hnil : exactRefs (r.rung t).hits = []
          · have hsame : exactRefs (r.rung t).hits = exactRefs r.hits := by
              by_contra hne
              exact hlost ⟨d, hd, fun h => hne (by rw [hnil, hnovel, h]), hnil⟩
            rw [hsame, hr.delta d hd]
          · exact length_recount_le (hr.delta d hd) (hnovel ▸ hsub) hnil
        · rintro ⟨-, d, hd, hne, t', ht', -, hnil, -⟩
          obtain rfl := ht.unique ht'
          exact hlost ⟨d, hd, hne, hnil⟩
    · -- Not even the bottom fits with the old delta, but it does with its own.
      have hbottom : t = r.start.units := ht.last.resolve_left hfits
      subst hbottom
      rw [(resting_size call r _).2 (Nat.not_le.mp hfits)]
      refine iff_of_true hbase ?_
      rintro ⟨-, d, hd, hne, t', ht', hle, -, -⟩
      obtain rfl := ht.unique ht'
      exact hfits hle

/-- What is sent always tells of its own hits. It is within the cap unless the delta, which is written after the hits
have been popped, has lost its refs and is longer without them. -/
theorem fitAnswerReadyResponse_describes (call : Call) (r : Response) (hr : WellFormed r)
    (hbase : (r.bottom.settle call.ftsFirst).size ≤ call.responseCharCap) :
    Describes call r (fitAnswerReadyResponse call r) ∧
      ((fitAnswerReadyResponse call r).encoded.length ≤ call.responseCharCap ↔ ¬ LosesRefs call r) :=
  ⟨describes_fit call hr, length_fit_le_iff call hr hbase⟩

/-- The first hit was not read again and has no exact ref. -/
def teaResponse : Response where
  query := "tea"
  settings := [("limit", .int 2)]
  totalResults := 2
  hits := [[("store_id", .int 2)], [("store_id", .int 1), ("content", .str "tea"), ("exact_ref", .str "lcm:1:0-3")]]
  arms := []
  anchor := none
  detail := []
  expandedHitCount := 1
  limits := []
  responseTruncated := false
  strict := []
  summaryLeads := none
  referencePolicy := []
  queryTruncated := none
  occurrenceTime := []
  adjacentReply := none
  status := []
  eventTimeUnavailable := none
  tail := []
  delta := some ⟨0, 1, [.str "lcm:1:0-3"], true, none⟩
  lateUnavailable := none

theorem wellFormed_tea : WellFormed teaResponse := ⟨⟨rfl, rfl⟩, fun d hd => by cases hd; rfl, rfl⟩

def teaCall : Call := ⟨351, [], []⟩

/-- The first hit just meets the cap. -/
theorem tea_sizes : (teaResponse.bottom.settle []).size ≤ 351 ∧ 351 < (teaResponse.setDelivered false).bare.size ∧
    351 < teaResponse.start.size ∧ (teaResponse.rung 1).size ≤ 351 ∧
    351 + len (.int 1) + len (.arr [.str "lcm:1:0-3"]) <
      ((resting teaCall teaResponse 1).recheckAnchor []).size + 20 := by decide +kernel

theorem tea_loses : LosesRefs teaCall teaResponse := by
  obtain ⟨-, hbare, hover, hfits, hlost⟩ := tea_sizes
  refine ⟨hbare, _, rfl, List.cons_ne_nil _ _, 1, ⟨by decide, fun n hn => ?_, .inl hfits⟩, hfits, rfl, hlost⟩
  obtain rfl : n = 0 := by omega
  exact hover

theorem describes_tea : Describes teaCall teaResponse (fitAnswerReadyResponse teaCall teaResponse) ∧
    ¬ (fitAnswerReadyResponse teaCall teaResponse).encoded.length ≤ 351 := by
  obtain ⟨hdescribes, hfits⟩ := fitAnswerReadyResponse_describes teaCall teaResponse wellFormed_tea tea_sizes.1
  exact ⟨hdescribes, fun hle => hfits.mp hle tea_loses⟩

end RecallDelivery
