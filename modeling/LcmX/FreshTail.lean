import LcmX.Lib.PyText
import Mathlib

/-!
# The fresh tail

The newest rows of a transcript are protected. A count and a number of tokens bound
the tail, and its start moves back to the assistant row whose results it would cut
off. A prefix that is summarized ends off such a group too.
-/
namespace FreshTail

open PyText

attribute [local instance] PyText.lawfulBEq_text

/-- A tool call, of which only the id matters; one that is no mapping has none. -/
structure ToolCall where
  isMapping : Bool
  id : List Char
  toolCallId : List Char
deriving DecidableEq, Repr

structure Message where
  role : String
  toolCallId : List Char
  toolCalls : List ToolCall
deriving DecidableEq, Repr

/-- `_tool_call_id` -/
def ToolCall.callId (c : ToolCall) : List Char :=
  if ¬ c.isMapping then [] else if c.id ≠ [] then strip c.id else strip c.toolCallId

namespace Message

variable (m : Message)

def isTool : Bool := m.role = "tool"

def callIds : List (List Char) := m.toolCalls.map ToolCall.callId

def resultId : List Char := strip m.toolCallId

end Message

section

variable (messages : List Message)

/-- The rows below `index`, from the last one on: the assistant that made the call, else `start`. -/
def openingAssistant (resultId : List Char) (start : Nat) : Nat → Nat
  | 0 => start
  | index + 1 =>
    match messages[index]? with
    | none => start
    | some message =>
      if message.role = "user" ∨ message.role = "system" then start
      else if message.role ≠ "assistant" then openingAssistant resultId start index
      else if resultId ∈ message.callIds then index
      else start

/-- `_assistant_group_start` -/
def assistantGroupStart (start : Nat) : Nat :=
  match messages[start]? with
  | none => start
  | some message =>
    if ¬ message.isTool then start
    else if message.resultId = [] then start
    else openingAssistant messages message.resultId start start

/-- `tool_group_safe_end` -/
def toolGroupSafeEnd (stop : Nat) : Nat :=
  let start := assistantGroupStart messages stop
  if start = stop ∨ 0 < start then start
  else
    let callIds := (messages[0]?.map Message.callIds).getD []
    stop + ((messages.drop stop).takeWhile fun message => message.isTool ∧ message.resultId ∈ callIds).length

structure FreshTailBoundary where
  start : Nat
  count : Nat
  tokens : Nat
  countLimit : Nat
  tokenLimit : Nat
  tokenLimited : Bool
  toolGroupExtended : Bool
deriving DecidableEq, Repr

variable (tokens : Message → Nat)

/-- The rows below `index`, newest first, while they fit: where the tail starts, and whether a row did not fit. -/
def tokenStart (countStart tokenLimit : Nat) : (index used start : Nat) → Nat × Bool
  | 0, _, start => (start, false)
  | index + 1, used, start =>
    if index < countStart then (start, false)
    else
      let messageTokens := (messages[index]?.map tokens).getD 0
      if index + 1 ≠ messages.length ∧ tokenLimit < used + messageTokens then (start, true)
      else tokenStart countStart tokenLimit index (used + messageTokens) index

/-- `resolve_fresh_tail_boundary`; the limits are those of the settings, and may be negative there. -/
def resolveFreshTailBoundary (freshTailCount freshTailMaxTokens : Int) : FreshTailBoundary :=
  let countLimit := freshTailCount.toNat
  let tokenLimit := freshTailMaxTokens.toNat
  if messages = [] then ⟨0, 0, 0, countLimit, tokenLimit, false, false⟩
  else
    let effectiveCountLimit := if 0 < tokenLimit then max 1 countLimit else countLimit
    let countStart := messages.length - effectiveCountLimit
    let (start, tokenLimited) :=
      if 0 < tokenLimit then tokenStart messages tokens countStart tokenLimit messages.length 0 (messages.length - 1)
      else (countStart, false)
    let groupStart := assistantGroupStart messages start
    let tail := messages.drop groupStart
    { start := groupStart
      count := tail.length
      tokens := (tail.map tokens).sum
      countLimit := countLimit
      tokenLimit := tokenLimit
      tokenLimited := tokenLimited
      toolGroupExtended := groupStart < start }

/-! ## Groups -/

/-- Row `r` is a result of the assistant row `a`, and only results stand between them. -/
structure IsResult (a r : Nat) : Prop where
  before : a < r
  tools : ∀ j, a < j → j ≤ r → ∃ m, messages[j]? = some m ∧ m.isTool = true
  call : ∃ c m, messages[a]? = some c ∧ messages[r]? = some m ∧ c.role = "assistant" ∧
    m.resultId ≠ [] ∧ m.resultId ∈ c.callIds

/-- Each tool row is a result of the nearest row before it that is no tool row. -/
def Grouped : Prop := ∀ r m, messages[r]? = some m → m.isTool = true → ∃ a, IsResult messages a r

/-- A boundary between a row and one of its results. -/
def Splits (boundary : Nat) : Prop := ∃ a r, IsResult messages a r ∧ a < boundary ∧ boundary ≤ r

/-- The tail from a row on is within the token limit, or it is the newest row alone. -/
def Fits (tokenLimit start : Nat) : Prop :=
  start + 1 = messages.length ∨ ((messages.drop start).map tokens).sum ≤ tokenLimit

/-- The boundary before it is moved off a group: the smallest start within the count limit that fits. -/
def Unadjusted (countLimit tokenLimit start : Nat) : Prop :=
  if 0 < tokenLimit ∧ messages ≠ [] then IsLeast
    {s | messages.length - max 1 countLimit ≤ s ∧ s < messages.length ∧ Fits messages tokens tokenLimit s} start
  else start = messages.length - countLimit

variable {messages}

namespace IsResult

variable {a r : Nat}

theorem not_tool (h : IsResult messages a r) {m : Message} (hm : messages[a]? = some m) : m.isTool = false := by
  obtain ⟨c, -, hc, -, hrole, -⟩ := h.call
  rw [hm] at hc
  cases hc
  simp [Message.isTool, hrole]

/-- A boundary that is no tool row splits nothing. -/
theorem not_splits {boundary : Nat} (h : ∀ m, messages[boundary]? = some m → m.isTool = false) :
    ¬ Splits messages boundary := by
  rintro ⟨a, r, hresult, hbefore, hafter⟩
  obtain ⟨m, hm, htool⟩ := hresult.tools boundary hbefore hafter
  rw [h m hm] at htool
  cases htool

end IsResult

/-! ## The start of a group -/

theorem openingAssistant_eq {a : Nat} {c : Message} {resultId : List Char}
    (hc : messages[a]? = some c) (hrole : c.role = "assistant")
    (hid : resultId ∈ c.callIds) (start : Nat) : ∀ index, a < index →
    (∀ j, a < j → j < index → ∃ m, messages[j]? = some m ∧ m.isTool = true) →
      openingAssistant messages resultId start index = a := by
  intro index
  induction index with
  | zero => exact fun hlt => absurd hlt (Nat.not_lt_zero a)
  | succ index ih =>
    intro hlt htools
    rw [openingAssistant]
    obtain heq | hbefore := Nat.eq_or_lt_of_le (Nat.le_of_lt_succ hlt)
    · subst heq
      rw [hc]
      simp [hrole, hid]
    · obtain ⟨m, hm, htool⟩ := htools index hbefore (Nat.lt_succ_self index)
      have hm' : m.role = "tool" := by simpa [Message.isTool] using htool
      rw [hm]
      simp only [hm']
      exact ih hbefore fun j hj hjlt => htools j hj (Nat.lt_succ_of_lt hjlt)

/-- The group start is the row itself, or the assistant that it is a result of. -/
theorem assistantGroupStart_cases (hgrouped : Grouped messages) (start : Nat) :
    (assistantGroupStart messages start = start ∧ ∀ m, messages[start]? = some m → m.isTool = false) ∨
      IsResult messages (assistantGroupStart messages start) start := by
  rw [assistantGroupStart]
  cases hm : messages[start]? with
  | none => exact .inl ⟨rfl, fun m h => by cases h⟩
  | some m =>
    dsimp only
    cases htool : m.isTool with
    | false => exact .inl ⟨rfl, fun m' h => by cases h; exact htool⟩
    | true =>
      obtain ⟨a, hresult⟩ := hgrouped start m hm htool
      obtain ⟨c, m', hc, hm', hrole, hblank, hid⟩ := hresult.call
      rw [hm] at hm'
      cases hm'
      have hopen := openingAssistant_eq hc hrole hid start start hresult.before
        fun j hj hlt => hresult.tools j hj hlt.le
      rw [if_neg (by simp), if_neg hblank, hopen]
      exact .inr hresult

theorem assistantGroupStart_not_splits (hgrouped : Grouped messages) (start : Nat) :
    ¬ Splits messages (assistantGroupStart messages start) := by
  obtain ⟨heq, hrow⟩ | hresult := assistantGroupStart_cases hgrouped start
  · rw [heq]
    exact IsResult.not_splits hrow
  · exact IsResult.not_splits fun m hm => hresult.not_tool hm

/-! ## The end of a prefix -/

theorem toolGroupSafeEnd_pos {stop : Nat} (hpos : 0 < stop) : toolGroupSafeEnd messages stop ≠ 0 := by
  rw [toolGroupSafeEnd]
  dsimp only
  split <;> omega

/-- The element behind what is taken does not pass the test. -/
theorem not_of_takeWhile_end {α : Type} {p : α → Bool} {l : List α} {x : α}
    (h : l[(l.takeWhile p).length]? = some x) : p x = false := by
  have hsplit := List.takeWhile_append_dropWhile (p := p) (l := l)
  have hstop := List.head?_dropWhile_not p l
  generalize l.takeWhile p = taken at h hsplit
  generalize l.dropWhile p = back at hsplit hstop
  rw [← hsplit, List.getElem?_append_right (Nat.le_refl _), Nat.sub_self, ← List.head?_eq_getElem?] at h
  rw [h] at hstop
  simpa using hstop

/-- The rows up to the extended end are tool rows. -/
theorem tools_of_extended {stop : Nat} (hbefore : ∀ j, 0 < j → j ≤ stop → ∃ m, messages[j]? = some m ∧ m.isTool = true)
    {p : Message → Bool} (hp : ∀ m, p m = true → m.isTool = true) {j : Nat} (hj : 0 < j)
    (hlt : j < stop + ((messages.drop stop).takeWhile p).length) : ∃ m, messages[j]? = some m ∧ m.isTool = true := by
  by_cases hle : j ≤ stop
  · exact hbefore j hj hle
  · have hplace : j - stop < ((messages.drop stop).takeWhile p).length := by omega
    have hget := List.prefix_iff_getElem?.mp (List.takeWhile_prefix p) (j - stop) hplace
    rw [List.getElem?_drop, Nat.add_sub_cancel' (by omega)] at hget
    exact ⟨_, hget, hp _ (List.mem_takeWhile_imp (List.getElem_mem hplace))⟩

/-- The safe end of a tail splits no group. -/
theorem toolGroupSafeEnd_not_splits (hgrouped : Grouped messages) (stop : Nat) :
    ¬ Splits messages (toolGroupSafeEnd messages stop) := by
  rw [toolGroupSafeEnd]
  dsimp only
  split
  · exact assistantGroupStart_not_splits hgrouped stop
  · next hextend =>
    rw [not_or] at hextend
    obtain ⟨heq, -⟩ | hresult := assistantGroupStart_cases hgrouped stop
    · exact absurd heq hextend.1
    · have hzero : assistantGroupStart messages stop = 0 := by omega
      rw [hzero] at hresult
      obtain ⟨c, -, hc, -⟩ := hresult.call
      rw [hc, Option.map_some, Option.getD_some]
      -- The row at the new end is no result of the first row, and so no tool row.
      refine IsResult.not_splits fun m hm => ?_
      by_contra htool
      rw [Bool.not_eq_false] at htool
      obtain ⟨b, hb⟩ := hgrouped _ m hm htool
      obtain ⟨c', m', hc', hm', -, -, hid⟩ := hb.call
      have hfirst : b = 0 := by
        by_contra hne
        obtain ⟨n, hn, hntool⟩ := tools_of_extended hresult.tools
          (fun m hm => (of_decide_eq_true hm).1) (Nat.pos_of_ne_zero hne) hb.before
        rw [hb.not_tool hn] at hntool
        cases hntool
      rw [hfirst, hc, Option.some.injEq] at hc'
      rw [hm, Option.some.injEq] at hm'
      subst hc' hm'
      rw [← List.getElem?_drop] at hm
      have hstop := not_of_takeWhile_end hm
      simp [htool, hid] at hstop

/-! ## The limits -/

variable {tokens}

theorem sum_drop (tokens : Message → Nat) {index : Nat} {m : Message} (hm : messages[index]? = some m) :
    ((messages.drop index).map tokens).sum = tokens m + ((messages.drop (index + 1)).map tokens).sum := by
  obtain ⟨hlt, rfl⟩ := List.getElem?_eq_some_iff.mp hm
  rw [List.drop_eq_getElem_cons hlt, List.map_cons, List.sum_cons]

theorem sum_drop_le (messages : List Message) (tokens : Message → Nat) {s index : Nat}
    (h : s ≤ index) : ((messages.drop index).map tokens).sum ≤ ((messages.drop s).map tokens).sum := by
  obtain ⟨n, rfl⟩ := Nat.exists_eq_add_of_le h
  rw [← List.drop_drop]
  generalize messages.drop s = rest
  have hsplit := congrArg (fun l => (l.map tokens).sum) (List.take_append_drop n rest)
  rw [List.map_append, List.sum_append] at hsplit
  omega

/-- The loop goes down from a start that fits, and stops at the least one. -/
theorem tokenStart_isLeast {countStart tokenLimit : Nat} (hcount : countStart < messages.length) (index : Nat) :
    ∀ used start, index ≤ messages.length → used = ((messages.drop index).map tokens).sum →
      (index < messages.length → start = index ∧ countStart ≤ index ∧ Fits messages tokens tokenLimit index) →
        IsLeast {s | countStart ≤ s ∧ s < messages.length ∧ Fits messages tokens tokenLimit s}
          (tokenStart messages tokens countStart tokenLimit index used start).1 := by
  induction index with
  | zero =>
    intro used start _ _ hstart
    obtain ⟨rfl, hle, hfits⟩ := hstart (Nat.zero_lt_of_lt hcount)
    exact ⟨⟨hle, Nat.zero_lt_of_lt hcount, hfits⟩, fun _ _ => Nat.zero_le _⟩
  | succ index ih =>
    intro used start hle hused hstart
    obtain ⟨m, hm⟩ : ∃ m, messages[index]? = some m := ⟨_, List.getElem?_eq_getElem hle⟩
    rw [tokenStart, hm, Option.map_some, Option.getD_some]
    dsimp only
    have hsum := sum_drop tokens hm
    split
    · next hbelow =>
      obtain ⟨rfl, hcountle, hfits⟩ := hstart (by omega)
      exact ⟨⟨hcountle, by omega, hfits⟩, fun s hs => Nat.le_trans (by omega) hs.1⟩
    · next hwithin =>
      split
      · next hover =>
        obtain ⟨rfl, hcountle, hfits⟩ := hstart (by omega)
        refine ⟨⟨hcountle, by omega, hfits⟩, fun s hs => ?_⟩
        -- A row further down has the tokens that did not fit.
        by_contra hlt
        have hmore := sum_drop_le messages tokens (show s ≤ index by omega)
        obtain hnewest | hless := hs.2.2 <;> omega
      · next hfit =>
        refine ih _ _ (by omega) (by omega) fun _ => ⟨rfl, by omega, ?_⟩
        by_cases hnewest : index + 1 = messages.length
        · exact .inl hnewest
        · right
          omega

/-- The start that the limits give. -/
theorem exists_unadjusted (messages : List Message) (tokens : Message → Nat) (freshTailCount freshTailMaxTokens : Int) :
    ∃ b, Unadjusted messages tokens freshTailCount.toNat freshTailMaxTokens.toNat b ∧
      (resolveFreshTailBoundary messages tokens freshTailCount freshTailMaxTokens).start =
      assistantGroupStart messages b ∧
      (messages ≠ [] → 0 < freshTailMaxTokens → b < messages.length) := by
  rw [resolveFreshTailBoundary]
  dsimp only
  by_cases hnil : messages = []
  · subst hnil
    exact ⟨0, by simp [Unadjusted], rfl, fun h => absurd rfl h⟩
  · rw [if_neg hnil]
    have hpos : 0 < messages.length := List.length_pos_iff.mpr hnil
    by_cases hlimit : 0 < freshTailMaxTokens.toNat
    · rw [if_pos hlimit, if_pos hlimit]
      have hleast : IsLeast _ (tokenStart messages tokens _ freshTailMaxTokens.toNat messages.length
          0 (messages.length - 1)).1 := tokenStart_isLeast
        (show messages.length - max 1 freshTailCount.toNat < messages.length by omega)
          messages.length 0 (messages.length - 1) (Nat.le_refl _)
        (by simp) fun h => absurd h (lt_irrefl _)
      refine ⟨_, ?_, rfl, fun _ _ => hleast.1.2.1⟩
      rw [Unadjusted, if_pos ⟨hlimit, hnil⟩]
      exact hleast
    · rw [if_neg hlimit, if_neg hlimit]
      refine ⟨_, ?_, rfl, fun _ h => absurd (by omega) hlimit⟩
      rw [Unadjusted, if_neg fun h => hlimit h.1]

/-- No boundary splits a call from its results. -/
theorem boundaries_keep_groups (tokens : Message → Nat) (hgrouped : Grouped messages) :
    (∀ freshTailCount freshTailMaxTokens,
      ¬ Splits messages (resolveFreshTailBoundary messages tokens freshTailCount freshTailMaxTokens).start) ∧
    (∀ stop, 0 < stop → ¬ Splits messages (toolGroupSafeEnd messages stop) ∧ toolGroupSafeEnd messages stop ≠ 0) ∧
    (∀ freshTailCount freshTailMaxTokens, ∃ b,
      Unadjusted messages tokens freshTailCount.toNat freshTailMaxTokens.toNat b ∧
      ((resolveFreshTailBoundary messages tokens freshTailCount freshTailMaxTokens).start = b ∨
        IsResult messages (resolveFreshTailBoundary messages tokens freshTailCount freshTailMaxTokens).start b)) ∧
    ∀ freshTailCount freshTailMaxTokens, messages ≠ [] → 0 < freshTailMaxTokens →
      (resolveFreshTailBoundary messages tokens freshTailCount freshTailMaxTokens).start < messages.length := by
  have hstart : ∀ b, assistantGroupStart messages b = b ∨ IsResult messages (assistantGroupStart messages b) b :=
    fun b => (assistantGroupStart_cases hgrouped b).imp_left And.left
  refine ⟨fun freshTailCount freshTailMaxTokens => ?_,
    fun stop hpos => ⟨toolGroupSafeEnd_not_splits hgrouped stop, toolGroupSafeEnd_pos hpos⟩,
    fun freshTailCount freshTailMaxTokens => ?_, fun freshTailCount freshTailMaxTokens hnil hlimit => ?_⟩ <;>
    obtain ⟨b, hb, heq, hlt⟩ := exists_unadjusted messages tokens freshTailCount freshTailMaxTokens <;> rw [heq]
  · exact assistantGroupStart_not_splits hgrouped b
  · exact ⟨b, hb, hstart b⟩
  · have hb := hlt hnil hlimit
    obtain hsame | hresult := hstart b
    · rwa [hsame]
    · exact hresult.before.trans hb

/-- Two calls with their results between user rows. -/
def sampleTranscript : List Message :=
  [⟨"user", [], []⟩, ⟨"assistant", [], [⟨true, "a ".toList, []⟩, ⟨true, [], "b".toList⟩]⟩,
    ⟨"tool", "b".toList, []⟩, ⟨"tool", "a".toList, []⟩,
    ⟨"user", [], []⟩]

theorem sampleTranscript_grouped : Grouped sampleTranscript := by
  intro r m hm htool
  match r with
  | 0 | 1 | 4 =>
    cases hm
    cases htool
  | 2 | 3 =>
    cases hm
    refine ⟨1, by omega, fun j hj hle => ?_, _, _, rfl, rfl, rfl, by decide +kernel, by decide +kernel⟩
    obtain rfl | rfl : j = 2 ∨ j = 3 := by omega
    all_goals exact ⟨_, rfl, rfl⟩
  | _ + 5 => cases hm

theorem boundaries_keep_groups_sample :
    (∀ freshTailCount freshTailMaxTokens,
      ¬ Splits sampleTranscript
      (resolveFreshTailBoundary sampleTranscript (fun _ => 5) freshTailCount freshTailMaxTokens).start) ∧
    (∀ stop, 0 < stop → ¬ Splits sampleTranscript (toolGroupSafeEnd sampleTranscript stop) ∧
      toolGroupSafeEnd sampleTranscript stop ≠ 0) ∧
    (∀ freshTailCount freshTailMaxTokens, ∃ b,
      Unadjusted sampleTranscript (fun _ => 5) freshTailCount.toNat freshTailMaxTokens.toNat b ∧
      ((resolveFreshTailBoundary sampleTranscript (fun _ => 5) freshTailCount freshTailMaxTokens).start = b ∨
        IsResult sampleTranscript
        (resolveFreshTailBoundary sampleTranscript (fun _ => 5) freshTailCount freshTailMaxTokens).start b)) ∧
    ∀ freshTailCount freshTailMaxTokens, sampleTranscript ≠ [] → 0 < freshTailMaxTokens →
      (resolveFreshTailBoundary sampleTranscript (fun _ => 5) freshTailCount freshTailMaxTokens).start <
      sampleTranscript.length :=
  boundaries_keep_groups (fun _ => 5) sampleTranscript_grouped

end

end FreshTail
