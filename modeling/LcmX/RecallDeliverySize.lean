import LcmX.RecallDelivery

/-!
# How long a recall response is

The text of an object is as long as its members, each counted with its key and its separators, so what one step of
the fitting changes is measured member by member.
-/
namespace RecallDelivery

variable {r : Response}

def len (v : Json.Value) : Nat := (Json.dumps plain v).length

/-- What a member adds to the text of its object. -/
def cost (ms : Members) : Nat := (ms.map fun m => (Json.quote false m.1).length + len m.2 + 4).sum

@[simp] theorem cost_nil : cost [] = 0 := rfl

@[simp] theorem cost_cons (m : String × Json.Value) (ms : Members) :
    cost (m :: ms) = (Json.quote false m.1).length + len m.2 + 4 + cost ms := by simp [cost]

@[simp] theorem cost_append (ms ms' : Members) : cost (ms ++ ms') = cost ms + cost ms' := by simp [cost]

theorem length_obj {ms : Members} (h : ms ≠ []) : len (.obj ms) = cost ms := by
  have hobj := Json.length_dumps_obj plain h
  have hcost : cost ms = (ms.map fun m => (Json.quote plain.ascii m.1).length + plain.colon.length + len m.2 +
      plain.comma.length).sum := by
    refine congrArg List.sum (List.map_congr_left fun m _ => ?_)
    simp only [plain, List.length_cons, List.length_nil]
    omega
  simp only [len] at hcost
  rw [← hcost] at hobj
  simpa [plain, len] using hobj

theorem length_arr {items : List Json.Value} (h : items ≠ []) :
    len (.arr items) = (items.map fun v => len v + 2).sum := by
  simpa [plain, len] using Json.length_dumps_arr plain h

theorem length_obj_le {ms ms' : Members} (h : ms'.Sublist ms) :
    len (.obj ms') ≤ len (.obj ms) := by
  by_cases hms' : ms' = []
  · subst hms'
    simp [len, Json.dumps, Json.dumpsMembers]
  · have hms : ms ≠ [] := by
      rintro rfl
      exact hms' (List.sublist_nil.mp h)
    rw [length_obj hms', length_obj hms]
    exact (h.map _).sum_le_sum fun _ _ => Nat.zero_le _

theorem length_arr_le {items items' : List Json.Value} (h : items'.Sublist items) :
    len (.arr items') ≤ len (.arr items) := by
  by_cases hitems' : items' = []
  · subst hitems'
    simp [len, Json.dumps, Json.dumpsItems]
  · have hitems : items ≠ [] := by
      rintro rfl
      exact hitems' (List.sublist_nil.mp h)
    rw [length_arr hitems', length_arr hitems]
    exact (h.map _).sum_le_sum fun _ _ => Nat.zero_le _

theorem length_hits_le (hits : List Hit) (f : Hit → Hit) (h : ∀ hit ∈ hits, (f hit).Sublist hit) :
    len (.arr ((hits.map f).map .obj)) ≤ len (.arr (hits.map .obj)) := by
  cases hits with
  | nil => exact le_refl _
  | cons hit hits =>
    rw [length_arr (by simp), length_arr (by simp), List.map_map, List.map_map, List.map_map]
    refine List.sum_le_sum fun other hother => Nat.add_le_add_right (length_obj_le (h other hother)) 2

theorem length_int_le {m n : Nat} (h : m ≤ n) : len (.int m) ≤ len (.int n) := by
  have hdigits : ∀ k : Nat, len (.int k) = k.repr.length :=
    fun k => by simp [len, Json.dumps, Int.toString_eq_repr, Int.repr, Nat.repr_eq_ofList_toDigits]
  have hpos := @Nat.length_repr_pos n
  rw [hdigits, hdigits, Nat.length_repr_le_iff hpos]
  exact lt_of_le_of_lt h ((Nat.length_repr_le_iff hpos).mp (le_refl _))

/-! ## The response -/

def Response.size (r : Response) : Nat := r.dumps.length

/-- The keys that are always written. -/
def keys : Nat :=
  (["query", "total_results", "hits", "provenance", "answer_ready", "expanded_hit_count",
    "response_truncated"].map fun key =>
    (Json.quote false key).length + 4).sum

theorem size_eq (r : Response) :
    r.size = keys + (Json.quote false r.query).length + cost r.settings + len (.int r.totalResults) +
    len (.arr (r.hits.map .obj)) + cost r.arms + cost
    (optional "fts_anchor" (r.anchor.map fun a => .obj a.members)) + cost r.detail +
    len (.int r.expandedHitCount) + cost r.limits + len (.bool r.responseTruncated) + cost r.strict +
    cost (optional "summary_leads" (r.summaryLeads.map fun leads => .arr (leads.map .obj))) + cost r.referencePolicy +
    cost (optional "query_truncated" (r.queryTruncated.map .bool)) + cost r.occurrenceTime +
    cost (optional "adjacent_reply"
    (r.adjacentReply.map fun pairs => .arr (pairs.map fun p => .obj p.members))) + cost r.status +
    cost (marker r.eventTimeUnavailable) + cost r.tail + cost (optional "delta" (r.delta.map fun d => .obj d.members)) +
    cost (marker r.lateUnavailable) := by
  have hquery : len (.str r.query) = (Json.quote false r.query).length := by rw [len, Json.dumps, plain]
  rw [Response.size, Response.dumps, ← len, length_obj (by simp [Response.members])]
  simp only [Response.members, cost_cons, cost_append, cost_nil, hquery]
  rw [@length_obj r.provenance (by simp [Response.provenance])]
  simp only [Response.provenance, cost_cons, cost_append, cost_nil]
  rw [@length_obj r.expansion (by simp [Response.expansion])]
  simp only [Response.expansion, cost_cons, cost_append, cost_nil, keys, List.map_cons,
    List.map_nil, List.sum_cons, List.sum_nil]
  omega

/-- The response without any event-time field and without the marker. -/
def Response.bare (r : Response) : Response := { r.unmarked with hits := r.hits.map withoutEventTime }

theorem size_bare_le (r : Response) : r.bare.size ≤ r.size := by
  have hhits := length_hits_le r.hits withoutEventTime fun _ _ => List.filter_sublist
  have hr := size_eq r
  rw [size_eq r.bare]
  simp only [Response.bare, Response.unmarked, marker, Option.elim_none, cost_nil]
  omega

theorem size_lt_marked (reason : String) (h : r.lateUnavailable = none) :
    r.size < { r with lateUnavailable := some reason }.size := by
  rw [size_eq r, size_eq]
  simp only [h, marker, Option.elim_none, Option.elim_some, cost_cons, cost_nil]
  omega

theorem size_lt_receipts (pairs : List Receipt) (h : r.adjacentReply = none) :
    r.size < { r with adjacentReply := some pairs }.size := by
  rw [size_eq r, size_eq]
  simp only [h, optional, Option.map_none, Option.map_some, Option.toList_none, Option.toList_some,
    List.map_nil, List.map_cons, cost_cons,
    cost_nil]
  omega

theorem cost_anchor_le (b : Bool) (h : r.setDelivered false = r) :
    cost (optional "fts_anchor" ((r.setDelivered b).anchor.map fun a => .obj a.members)) ≤
      cost (optional "fts_anchor" (r.anchor.map fun a => .obj a.members)) := by
  have hanchor : ∀ a, r.anchor = some a → a.fired = true → a.delivered = some false := by
    intro a ha hfired
    have heq := congrArg Response.anchor h
    rw [Response.setDelivered, ha, Option.map_some, if_pos hfired] at heq
    exact (congrArg Anchor.delivered (Option.some.inj heq)).symm
  cases ha : r.anchor with
  | none => simp [Response.setDelivered, ha]
  | some a =>
    simp only [Response.setDelivered, ha, Option.map_some]
    by_cases hfired : a.fired = true
    · have hdelivered := hanchor a ha hfired
      rw [if_pos hfired]
      simp only [optional, Option.toList_some, List.map_cons, List.map_nil, cost_cons, cost_nil]
      rw [length_obj (by simp [Anchor.members]), length_obj (by simp [Anchor.members])]
      simp only [Anchor.members, cost_cons, cost_nil, hdelivered, Option.elim_some, len, Json.dumps]
      cases b <;> simp
    · rw [if_neg hfired]

theorem size_setDelivered_le (b : Bool) (h : r.setDelivered false = r) : (r.setDelivered b).size ≤ r.size := by
  have hcost := cost_anchor_le b h
  rw [size_eq r, size_eq]
  simp only [Response.setDelivered] at hcost ⊢
  omega

/-! ## The delta -/

theorem length_delta (d : Delta) (refs : List Json.Value) :
    len (.obj (d.recount refs).members) + (len (.int d.novelRefCount) +
        len (.arr d.novelRefs) + len (.bool d.progress) +
        len (d.terminationReason.elim .null .str)) =
      len (.obj d.members) + (len (.int refs.length) + len (.arr refs) +
        if refs = [] then 25 else 8) := by
  have htail : len (.bool (!refs.isEmpty)) +
      len ((if refs.isEmpty then some "no_novel_exact_ref" else none).elim .null .str) = if refs =
        [] then 25 else 8 := by
    cases refs with
    | nil => decide
    | cons ref refs => simp [len, Json.dumps]
  rw [length_obj (by simp [Delta.members]), length_obj (by simp [Delta.members])]
  simp only [Delta.members, Delta.recount, cost_cons, cost_nil]
  omega

theorem size_recountDelta {d : Delta} (h : r.delta = some d) :
    r.recountDelta.size + len (.obj d.members) =
      r.size + len (.obj (d.recount (exactRefs r.hits)).members) := by
  rw [size_eq r, size_eq]
  simp only [Response.recountDelta, h, optional, Option.map_some, Option.toList_some, List.map_cons,
    List.map_nil, cost_cons, cost_nil]
  omega

end RecallDelivery
