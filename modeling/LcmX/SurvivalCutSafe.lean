import LcmX.SurvivalCut

/-!
# What a cut may lose

A row that is not in the list any more is stored. From the chosen user row on the
rows stay in their order, each as it is, as a projection of its stored row, or in
the carrier that is formed again around the first of them.
-/
namespace SurvivalFit

section

variable {V S : Type} {h : Host V S}

/-! ## Rows of the list -/

variable {c : CutCall V} {ids : Nat → Option Nat} {p : Parts V}

theorem mem_rows {row : Row V} (hrow : row ∈ c.rows) : ∃ i < c.result.length, row.object = some i := by
  obtain ⟨p, hp, rfl⟩ := List.mem_map.mp hrow
  exact ⟨p.2, List.snd_lt_of_mem_zipIdx hp, rfl⟩

theorem length_rows (c : CutCall V) : c.rows.length = c.result.length := by simp [CutCall.rows]

/-- The projections of a stored row in the place of a live one; the mark may be set on a projection. -/
inductive Projects (h : Host V S) (source : V) (stored : S) : V → Prop where
  | message (tokens : Nat) : Projects h source stored (h.projectMessage source stored tokens)
  | legacy (tokens : Nat) : Projects h source stored (h.projectLegacy source stored tokens)
  | again {base : V} (tokens : Nat) (hbase : Projects h source stored base) :
      Projects h source stored (h.projectLegacy base stored tokens)
  | reply (tokens : Nat) : Projects h source stored (h.projectReply source stored tokens)

/-- A projection of the stored row of a source. -/
def IsProjection (h : Host V S) (ids : Nat → Option Nat) (source row : Row V) : Prop :=
  row.object = none ∧ ∃ id stored, mapped ids source = some id ∧ h.get id = some stored ∧
    Projects h source.value stored row.value

def Represents (h : Host V S) (ids : Nat → Option Nat) (source row : Row V) : Prop :=
  row = source ∨ IsProjection h ids source row

/-- A carrier that is formed again around a user row. -/
def IsReformed (h : Host V S) (carrier first row : Row V) : Prop :=
  ∃ content taken, h.textContent first.value = some content ∧
    h.carrierRemainder (h.userRow (h.carrierSummary carrier.value ++ "\n\n" ++ content)) = some content ∧
    row = ⟨none, h.summaryIdentity carrier.value
      (h.userRow (h.carrierSummary carrier.value ++ "\n\n" ++ content)) "carrier"
      (some first.value) taken⟩

/-! ## Projections -/

theorem forall₂_set {α β : Type} {r : α → β → Prop} {a : List α} {b : List β} (hr : List.Forall₂ r a b) :
    ∀ {i : Nat} {x : α} {y : β}, a[i]? = some x → r x y → List.Forall₂ r a (b.set i y) := by
  induction hr with
  | nil => exact fun hx _ => nomatch hx
  | cons hhead htail ih =>
    intro i x y hx hy
    cases i with
    | zero =>
      rw [List.getElem?_cons_zero, Option.some.injEq] at hx
      exact .cons (hx ▸ hy) htail
    | succ i => exact .cons hhead (ih hx hy)

theorem forall₂_getElem? {α β : Type} {r : α → β → Prop} {a : List α} {b : List β}
    (hr : List.Forall₂ r a b) {i : Nat} {x : α} {y : β}
    (hx : a[i]? = some x) (hy : b[i]? = some y) : r x y := by
  obtain ⟨hi, rfl⟩ := List.getElem?_eq_some_iff.mp hx
  obtain ⟨hi', rfl⟩ := List.getElem?_eq_some_iff.mp hy
  exact hr.get hi hi'

theorem projectable_spec {source : Row V} {stored : S} (hs : projectable h ids source = some stored) :
    ∃ id, mapped ids source = some id ∧ h.get id = some stored := by
  rw [projectable] at hs
  split at hs
  · cases hs
  · exact Option.bind_eq_some_iff.mp (Option.filter_eq_some_iff.mp hs).1

theorem projectHeads_represents (limit : Int) {turn : List (Row V)} (order : List Nat) :
    ∀ out, List.Forall₂ (Represents h ids) turn out →
      List.Forall₂ (Represents h ids) turn (projectHeads h ids limit turn order out) := by
  induction order with
  | nil => exact fun out hout => hout
  | cons index order ih =>
    intro out hout
    rw [projectHeads]
    split
    · exact hout
    · split
      · exact ih out hout
      · next source hsource =>
        split
        · exact ih out hout
        · next stored hstored =>
          obtain ⟨id, hid, hget⟩ := projectable_spec hstored
          apply ih
          split
          · exact forall₂_set hout hsource (.inr ⟨rfl, id, stored, hid, hget, .message _⟩)
          · exact hout

/-- Projected rows still represent the turn. -/
theorem projectMarks_represents (limit : Int) {turn : List (Row V)} (roles : List String) (order : List Nat) :
    ∀ out, List.Forall₂ (Represents h ids) turn out →
      List.Forall₂ (Represents h ids) turn (projectMarks h ids limit turn roles order out) := by
  induction order with
  | nil => exact fun out hout => hout
  | cons index order ih =>
    intro out hout
    rw [projectMarks]
    split
    · exact ih out hout
    · next source hsource =>
      split
      · exact ih out hout
      · split
        · exact hout
        · split
          · next stored current hstored hcurrent =>
            obtain ⟨id, hid, hget⟩ := projectable_spec (Option.filter_eq_some_iff.mp hstored).1
            have hmark : Projects h source.value stored
                (h.projectLegacy current.value stored (h.countTokens source.value)) := by
              rcases forall₂_getElem? hout hsource hcurrent with rfl | ⟨-, id', stored', hid', hget', hbase⟩
              · exact .legacy _
              · rw [hid, Option.some.injEq] at hid'
                rw [← hid', hget, Option.some.injEq] at hget'
                exact .again _ (hget' ▸ hbase)
            apply ih
            split
            · exact forall₂_set hout hsource (.inr ⟨rfl, id, stored, hid, hget, hmark⟩)
            · exact hout
          · exact ih out hout

/-- The newest turn keeps its rows in their places. -/
theorem projection_represents (ids : Nat → Option Nat) (turn : List (Row V)) (limit : Int) (hardCap : Option Int) :
    List.Forall₂ (Represents h ids) turn (projection h ids turn limit hardCap) := by
  have hself : List.Forall₂ (Represents h ids) turn turn := List.forall₂_same.mpr fun _ _ => .inl rfl
  have hheads := projectHeads_represents limit (projectionOrder h turn) turn hself
  have hmarks := projectMarks_represents limit ["tool", "assistant"] (projectionOrder h turn) _ hheads
  have husers := projectMarks_represents limit ["user"] (projectionOrder h turn) _ hmarks
  simp only [projection]
  split
  · exact hheads
  · split
    · exact hmarks
    · split
      · exact hmarks
      · exact husers

/-! ## Building the list -/

/-- The rows behind the head: a summary of its own, or none, and then what is kept, the first row
perhaps in its carrier. -/
def Follows (h : Host V S) (p : Parts V) (kept rest : List (Row V)) : Prop :=
  ∃ summary tail, rest = summary ++ tail ∧
    (tail = kept ∨ ∃ carrier first more merged, p.carrier = some carrier ∧ kept = first :: more ∧
      tail = merged :: more ∧
      IsReformed h carrier first merged)

theorem withSummary_follows {carrier : Row V} (hcarrier : p.carrier = some carrier) (out kept : List (Row V)) :
    ∃ rest, (withSummary h carrier out kept).1 = out ++ rest ∧ Follows h p kept rest := by
  have halone : ∀ row : Row V, ∃ rest, out ++ row :: kept = out ++ rest ∧ Follows h p kept rest := fun row =>
    ⟨row :: kept, rfl, [row], kept, rfl, .inl rfl⟩
  cases kept with
  | nil => exact halone _
  | cons first more =>
    cases hcontent : h.textContent first.value with
    | none =>
      simp only [withSummary, hcontent]
      exact halone _
    | some content =>
      simp only [withSummary, hcontent]
      split
      · next hformed =>
        exact ⟨_, rfl, [], _, rfl,
          .inr ⟨carrier, first, more, _, hcarrier, rfl, rfl, content, _, hcontent, hformed.2.2, rfl⟩⟩
      · exact halone _

/-- A summary is never lost. -/
theorem withSummary_ne_nil (carrier : Row V) (out kept : List (Row V)) : (withSummary h carrier out kept).1 ≠ [] := by
  cases kept with
  | nil => simp [withSummary]
  | cons first more =>
    cases hcontent : h.textContent first.value with
    | none => simp [withSummary, hcontent]
    | some content =>
      simp only [withSummary, hcontent]
      split <;> simp

theorem noticedHead_ne_nil (hhead : p.head ≠ []) (notice : String) : noticedHead h p notice ≠ [] := by
  rw [noticedHead]
  split
  · next hnil => exact absurd hnil hhead
  · split <;> simp

/-- The list is the head with its notice and what follows it. -/
theorem build_follows (c : CutCall V) (p : Parts V) (cut : Nat) {kept : List (Row V)} (reply : Option (Row V))
    (hne : p.head = [] → kept = [] → c.rows = []) :
    ∃ notice rest, (build h c p cut kept reply).fitted = noticedHead h p notice ++ rest ∧ Follows h p kept rest := by
  let notice := (build h c p cut kept reply).notice
  refine ⟨notice, ?_⟩
  have hfitted : (build h c p cut kept reply).fitted =
      let all := ((p.carrier.map fun carrier => withSummary h carrier (noticedHead h p notice) kept).getD
        (noticedHead h p notice ++ kept, none)).1
      if all.isEmpty then c.rows.drop (c.rows.length - 1) else all := rfl
  rw [hfitted]
  cases hcarrier : p.carrier with
  | none =>
    simp only [Option.map_none, Option.getD_none]
    split
    · next hempty =>
      rw [List.isEmpty_iff, List.append_eq_nil_iff] at hempty
      have hhead : p.head = [] := by
        by_contra hne
        exact noticedHead_ne_nil hne notice hempty.1
      rw [hempty.1, hne hhead hempty.2]
      exact ⟨[], by simp, [], [], rfl, .inl hempty.2.symm⟩
    · exact ⟨kept, rfl, [], kept, rfl, .inl rfl⟩
  | some carrier =>
    simp only [Option.map_some, Option.getD_some]
    obtain ⟨rest, hrest, hfollows⟩ := withSummary_follows hcarrier (noticedHead h p notice) kept
    split
    · next hempty =>
      exact absurd (List.isEmpty_iff.mp hempty) (withSummary_ne_nil _ _ _)
    · exact ⟨rest, hrest, hfollows⟩

/-! ## The parts of the list -/

theorem parts_cases (h : Host V S) (c : CutCall V) :
    ((parts h c).carrier = none ∧ (parts h c).head = c.rows.take c.lead ∧ (parts h c).body = c.rows.drop c.lead ∧
      (parts h c).ids = c.storeIds) ∨
    ∃ front carrier remainder, c.wholeTurns = true ∧ c.rows.take c.lead = front ++ [carrier] ∧
      h.carrierRemainder carrier.value = some remainder ∧
      parts h c = ⟨front, ⟨some c.result.length, h.splitCarrier carrier.value remainder⟩ :: c.rows.drop
      c.lead, some carrier,
        Function.update c.storeIds c.result.length (mapped c.storeIds carrier)⟩ := by
  cases hwhole : c.wholeTurns with
  | false =>
    left
    simp [parts, hwhole]
  | true =>
    cases hlast : (c.rows.take c.lead).getLast? with
    | none =>
      left
      simp [parts, hwhole, hlast]
    | some carrier =>
      cases hremainder : h.carrierRemainder carrier.value with
      | none =>
        left
        simp [parts, hwhole, hlast, hremainder]
      | some remainder =>
        right
        refine ⟨(c.rows.take c.lead).dropLast, carrier, remainder, rfl, ?_, hremainder, ?_⟩
        · exact (List.dropLast_append_getLast? carrier hlast).symm
        · simp [parts, hwhole, hlast, hremainder]

/-- The rows of the list keep their store ids. -/
theorem mapped_parts (c : CutCall V) {row : Row V} (hrow : row ∈ c.rows) :
    mapped (parts h c).ids row = mapped c.storeIds row := by
  rcases parts_cases h c with ⟨-, -, -, hids⟩ | ⟨front, carrier, remainder, -, -, -, hparts⟩
  · rw [hids]
  · obtain ⟨i, hi, hobject⟩ := mem_rows hrow
    rw [hparts]
    simp only [mapped, hobject, Option.bind_some]
    exact Function.update_of_ne (Nat.ne_of_lt hi) ..

theorem rows_inj {a b : Row V} (ha : a ∈ c.rows) (hb : b ∈ c.rows) (hsame : a.object = b.object) : a = b := by
  obtain ⟨p, hp, rfl⟩ := List.mem_map.mp ha
  obtain ⟨q, hq, rfl⟩ := List.mem_map.mp hb
  have hpos : p.2 = q.2 := Option.some.inj hsame
  rw [List.mem_zipIdx_iff_getElem?] at hp hq
  rw [hpos, hq, Option.some.injEq] at hp
  rw [hpos, hp]

/-- No two rows of the body are one object. -/
theorem body_inj {a b : Row V} (ha : a ∈ (parts h c).body) (hb : b ∈ (parts h c).body)
    (hsame : Row.isSame a b = true) : a = b := by
  rw [Row.isSame, decide_eq_true_eq] at hsame
  rcases parts_cases h c with ⟨-, -, hbody, -⟩ | ⟨front, carrier, remainder, -, -, -, hparts⟩
  · rw [hbody] at ha hb
    exact rows_inj (List.mem_of_mem_drop ha) (List.mem_of_mem_drop hb) hsame.2
  · rw [hparts] at ha hb
    have hfresh : ∀ row ∈ c.rows.drop c.lead, row.object ≠ some c.result.length := by
      intro row hrow he
      obtain ⟨i, hi, hobject⟩ := mem_rows (List.mem_of_mem_drop hrow)
      rw [hobject, Option.some.injEq] at he
      omega
    rcases List.mem_cons.mp ha with rfl | ha <;> rcases List.mem_cons.mp hb with rfl | hb
    · rfl
    · exact absurd hsame.2.symm (hfresh b hb)
    · exact absurd hsame.2 (hfresh a ha)
    · exact rows_inj (List.mem_of_mem_drop ha) (List.mem_of_mem_drop hb) hsame.2

/-! ## The kept rows -/

/-- What is kept from a position of the body on: its rows, and the reply in front of them perhaps. -/
structure KeepsFrom (h : Host V S) (p : Parts V) (index : Nat) (kept : List (Row V))
    (reply : Option (Row V)) : Prop where
  rows : ∃ replies turn, kept = replies ++ turn ∧ List.Forall₂ (Represents h p.ids) (p.body.drop index) turn
  reply : ∀ r, reply = some r → r ∈ p.body ∧ ∃ row ∈ kept, Represents h p.ids r row

/-- What is kept of a turn represents it, with a reply in front perhaps. -/
theorem keepReply_keepsFrom (c : CutCall V) {index : Nat} {turn : List (Row V)}
    (hturn : List.Forall₂ (Represents h (parts h c).ids) ((parts h c).body.drop index) turn) :
    KeepsFrom h (parts h c) index (keepReply h c (parts h c) index turn).1
    (keepReply h c (parts h c) index turn).2 := by
  have hnone : KeepsFrom h (parts h c) index turn none := ⟨⟨[], turn, rfl, hturn⟩, fun _ hr => nomatch hr⟩
  rw [keepReply]
  split
  · exact hnone
  · next r hr =>
    have hbody : r ∈ (parts h c).body := by
      have hat := (Option.filter_eq_some_iff.mp hr).1
      split at hat
      · cases hat
      · exact List.mem_of_getElem? hat
    have hfront : ∀ row, Represents h (parts h c).ids r row →
        KeepsFrom h (parts h c) index (row :: turn) (some r) := fun row hrow =>
      ⟨⟨[row], turn, rfl, hturn⟩,
        fun r' hr' => ⟨Option.some.inj hr' ▸ hbody, row, List.mem_cons_self, Option.some.inj hr' ▸ hrow⟩⟩
    have hcandidate : KeepsFrom h (parts h c) index (if turn.any (Row.isSame r) then turn else r :: turn) (some r) := by
      split
      · next hany =>
        -- the reply is a row of the turn
        obtain ⟨row, hrow, hsame⟩ := List.any_eq_true.mp hany
        refine ⟨⟨[], turn, rfl, hturn⟩, fun r' hr' => ⟨Option.some.inj hr' ▸ hbody, row, hrow, .inl ?_⟩⟩
        rw [← Option.some.inj hr']
        obtain ⟨i, hi, rfl⟩ := List.mem_iff_getElem.mp hrow
        have hlength := hturn.length_eq
        rcases hturn.get (by omega) hi with hself | hprojection
        · rw [List.get_eq_getElem, List.get_eq_getElem] at hself
          refine (body_inj hbody ?_ hsame).symm
          rw [hself]
          exact List.mem_of_mem_drop (List.getElem_mem _)
        · have hobject : turn[i].object = none := hprojection.1
          rw [Row.isSame, decide_eq_true_eq, hobject] at hsame
          rw [hsame.2] at hsame
          cases hsame.1
      · exact hfront r (.inl rfl)
    simp only
    generalize (if turn.any (Row.isSame r) then turn else r :: turn) = candidate at hcandidate ⊢
    split
    · exact hcandidate
    · split
      · exact hnone
      · split
        · exact hnone
        · next stored hstored =>
          obtain ⟨id, hid, hget⟩ := Option.bind_eq_some_iff.mp (Option.filter_eq_some_iff.mp hstored).1
          split
          · exact hfront _ (.inr ⟨rfl, id, stored, hid, hget, .reply _⟩)
          · exact hnone

/-! ## The cut in the body -/

/-- A cut at a position of the body: what it keeps, and that everything else in front of it is stored. -/
structure IsCutAt (h : Host V S) (c : CutCall V) (cut : Cut V) (index : Nat) (kept : List (Row V))
    (reply : Option (Row V)) : Prop where
  position : (∃ row, (parts h c).body[index]? = some row ∧ h.role row.value = "user") ∨ index = 0
  keeps : KeepsFrom h (parts h c) index kept reply
  fitted : cut.fitted = (build h c (parts h c) index kept reply).fitted
  durable : ∀ m ∈ (parts h c).body.take index, reply.any (Row.isSame m) = false → isDurable h c (parts h c).ids m = true

/-- A cut that an exit fit may make. -/
structure IsGuardedAt (h : Host V S) (c : CutCall V) (cut : Cut V) (index : Nat) (reply : Option (Row V)) : Prop where
  position : 0 < index
  covered : c.isExit = true → ∀ m ∈ (parts h c).body.take index, reply.any (Row.isSame m) = false →
    isCovered h c (parts h c) m = true
  keepFrom : ∀ k, c.keepFrom = some k → (parts h c).head.length + index ≤ k
  budget : measureRows h cut.fitted ≤ c.budget

theorem mem_users {i : Nat} (hi : i ∈ users h p) : ∃ row, p.body[i]? = some row ∧ h.role row.value = "user" := by
  have hany := (List.mem_filter.mp hi).2
  cases hrow : p.body[i]? with
  | none => rw [hrow] at hany; cases hany
  | some row =>
    rw [hrow, Option.any_some, decide_eq_true_eq] at hany
    exact ⟨row, rfl, hany⟩

/-- The cut that is chosen is at a user row, and guarded. -/
theorem oldestCut_spec (c : CutCall V) (newest : Nat) {cut : Cut V} (l : List Nat) : l ⊆ users h (parts h c) →
    oldestCut h c (parts h c) newest l = some cut →
    ∃ index kept reply, IsCutAt h c cut index kept reply ∧ IsGuardedAt h c cut index reply := by
  induction l with
  | nil => exact fun _ hcut => nomatch hcut
  | cons index rest ih =>
    intro hl hcut
    have hrest := ih fun i hi => hl (List.mem_cons_of_mem _ hi)
    have hself : List.Forall₂ (Represents h (parts h c).ids) ((parts h c).body.drop index)
        ((parts h c).body.drop index) :=
      List.forall₂_same.mpr fun _ _ => .inl rfl
    have hkeeps : KeepsFrom h (parts h c) index
        (if index = newest then keepReply h c (parts h c) index ((parts h c).body.drop index)
          else ((parts h c).body.drop index, none)).1
        (if index = newest then keepReply h c (parts h c) index ((parts h c).body.drop index)
          else ((parts h c).body.drop index, none)).2 := by
      split
      · exact keepReply_keepsFrom c hself
      · exact ⟨⟨[], _, rfl, hself⟩, fun _ hr => nomatch hr⟩
    rw [oldestCut] at hcut
    split at hcut
    · cases hcut
    · next hkeep =>
      generalize (if index = newest then keepReply h c (parts h c) index ((parts h c).body.drop index)
        else ((parts h c).body.drop index, none)) = choice at hcut hkeeps
      obtain ⟨kept, reply⟩ := choice
      simp only at hcut hkeeps
      have hdropped : ∀ {q : Row V → Bool},
        ((parts h c).body.take index).filter (fun m => !(reply.any (Row.isSame m))) |>.all q →
          ∀ m ∈ (parts h c).body.take index, reply.any (Row.isSame m) = false → q m = true := fun hall m hm hother =>
        List.all_eq_true.mp hall m (List.mem_filter.mpr ⟨hm, by simp [hother]⟩)
      split at hcut
      · exact hrest hcut
      · next hpositive =>
        split at hcut
        · cases hcut
        · next hdurable =>
          split at hcut
          · cases hcut
          · next hcovered =>
            split at hcut
            · exact hrest hcut
            · split at hcut
              · next hbudget =>
                cases hcut
                rw [not_not] at hdurable
                refine ⟨index, kept, reply, ⟨.inl (mem_users (hl List.mem_cons_self)), hkeeps, rfl, hdropped hdurable⟩,
                  Nat.pos_of_ne_zero hpositive, fun hexit => hdropped ?_, fun k hk => ?_, hbudget⟩
                · rw [not_and, not_not] at hcovered
                  exact hcovered hexit
                · simpa [hk] using hkeep
              · exact hrest hcut

/-- A fallback to the newest turn is a cut at its position. -/
theorem newestTurn_spec (c : CutCall V) {index : Nat}
    (hindex : (∃ row, (parts h c).body[index]? = some row ∧ h.role row.value = "user") ∨
    index = 0) {cut : Cut V} (hcut : newestTurn h c (parts h c) index = some cut) :
    ∃ kept reply, IsCutAt h c cut index kept reply := by
  rw [newestTurn] at hcut
  split at hcut
  · cases hcut
  · next hdurable =>
    rw [not_not] at hdurable
    have hturn := projection_represents (h := h) (parts h c).ids ((parts h c).body.drop index)
      (c.budget - measureRows h
        ((build h c (parts h c) index ((parts h c).body.drop index) none).fitted.take (parts h c).head.length))
      (c.hardCap.map (· - measureRows h
        ((build h c (parts h c) index ((parts h c).body.drop index) none).fitted.take (parts h c).head.length)))
    simp only at hcut
    cases hcut
    exact ⟨_, _, hindex, keepReply_keepsFrom c hturn, rfl, fun m hm _ => List.all_eq_true.mp hdurable m hm⟩

end

end SurvivalFit
