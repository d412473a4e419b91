import CacheNode.Proofs.Living

/-!
# CacheNode — when expired entries are removed

A course is a sequence of requests to a partition at instants that do not go back, among which
expired keys may be removed at any time. Two courses with the same requests, on copies of a
partition with the same live entries, have the same answers and keep the same live entries: it does
not matter when which expired entry was removed. A removal is performed on one side alone, which
leaves the copies indistinct, and a request on both.

* `Site.Course` — requests and removals that never run out of room;
* `Site.SameCourse` — courses that come to the same;
* `Site.expiry_unobservable` — two courses with the same requests.
-/

namespace CacheNode

/-- The instants of a sequence do not go back, and none lies before a start. -/
def Partition.Operation.Onward (start : Millis) (acts : List Partition.Operation) : Prop :=
  (start :: acts.filterMap Partition.Operation.instant?).Pairwise (· ≤ ·)

/-- An instant that does not lie before a start, nor before any instant of a sequence. -/
def Partition.Operation.Past (start : Millis) (acts : List Partition.Operation) (now : Millis) :
    Prop :=
  ∀ instant ∈ start :: acts.filterMap Partition.Operation.instant?, instant ≤ now

namespace Site

variable {s t : Site} {now : Millis}

/-- The requests of a sequence with their results. -/
def answersOf (acts : List Partition.Operation) (s : Site) :
    List (Partition.Operation × Result) :=
  (acts.zip (performAll acts s).1).filter (·.1.isRequest)

theorem answersOf_cons (act : Partition.Operation) (rest : List Partition.Operation) (s : Site) :
    answersOf (act :: rest) s =
      if act.isRequest then (act, (s.perform act).1) :: answersOf rest (s.perform act).2
      else answersOf rest (s.perform act).2 := by
  simp only [answersOf, performAll, List.zip_cons_cons, List.filter_cons]

/-- A sequence of requests, among which expired keys may be removed, at instants that do not go
back. Nothing is refused for lack of room. -/
structure Course (start : Millis) (acts : List Partition.Operation) (s : Site) : Prop where
  kinds  : ∀ act ∈ acts, act.isRequest = true ∨ act.isExpire = true
  onward : Partition.Operation.Onward start acts
  roomy  : ∀ result ∈ (performAll acts s).1, Roomy result

variable {act : Partition.Operation} {rest left right : List Partition.Operation}
  {start startLeft startRight : Millis}

/-- The first operation of a course, and the course that follows it. -/
theorem Course.cons (h : Course start (act :: rest) s) :
    ∃ now, act.instant? = some now ∧ start ≤ now ∧ Roomy (s.perform act).1 ∧
      Course now rest (s.perform act).2 := by
  obtain ⟨hkinds, honward, hroomy⟩ := h
  have htimed : ∃ now, act.instant? = some now := by
    rcases hkinds act List.mem_cons_self with hact | hact <;>
      cases act <;> first | exact ⟨_, rfl⟩ | cases hact
  obtain ⟨now, hnow⟩ := htimed
  rw [Partition.Operation.Onward, List.filterMap_cons_some hnow] at honward
  obtain ⟨hstart, hlater⟩ := List.pairwise_cons.1 honward
  refine ⟨now, hnow, hstart now List.mem_cons_self, hroomy _ List.mem_cons_self, ?_⟩
  exact
    { kinds  := fun later hlater => hkinds later (List.mem_cons_of_mem _ hlater)
      onward := hlater
      roomy  := fun result hresult => hroomy result (List.mem_cons_of_mem _ hresult) }

/-- The beginning of a course is one. -/
theorem Course.of_append {more : List Partition.Operation} (h : Course start (left ++ more) s) :
    Course start left s where
  kinds  := fun act hact => h.kinds act (List.mem_append_left _ hact)
  onward := by
    have honward := h.onward
    rw [Partition.Operation.Onward, List.filterMap_append, ← List.cons_append] at honward
    exact (List.pairwise_append.1 honward).1
  roomy  := fun result hresult => h.roomy result (by
    rw [performAll_append]
    exact List.mem_append_left _ hresult)

theorem past_cons (hnow : act.instant? = some now) {last : Millis}
    (h : Partition.Operation.Past start (act :: rest) last) :
    start ≤ last ∧ Partition.Operation.Past now rest last := by
  rw [Partition.Operation.Past, List.filterMap_cons_some hnow] at h
  exact ⟨h start List.mem_cons_self, fun instant hinstant => h instant (.tail _ hinstant)⟩

/-- Removing what has expired cannot be noticed. -/
theorem indistinct_of_isExpire (hact : act.isExpire = true) (hnow : act.instant? = some now)
    (s : Site) : (s.perform act).2.part.Indistinct now s.part := by
  cases act with
  | expire keys clock => cases hnow; exact indistinct_expire keys now s
  | _ => cases hact

theorem not_isRequest_of_isExpire (hact : act.isExpire = true) : act.isRequest = false := by
  cases act <;> first | rfl | cases hact

/-- Two sequences whose requests have the same answers, and which lead to partitions that are
indistinct from their latest instant on. -/
structure SameCourse (startLeft startRight : Millis) (left right : List Partition.Operation)
    (s t : Site) : Prop where
  answers : answersOf left s = answersOf right t
  parts   : ∀ now, Partition.Operation.Past startLeft left now →
    Partition.Operation.Past startRight right now →
    (performAll left s).2.part.Indistinct now (performAll right t).2.part

namespace SameCourse

theorem symm (h : SameCourse startLeft startRight left right s t) :
    SameCourse startRight startLeft right left t s where
  answers := h.answers.symm
  parts   := fun now hr hl => (h.parts now hl hr).symm

/-- A removal is performed on one side alone. -/
theorem removal (hact : act.isExpire = true) (hnow : act.instant? = some now)
    (h : SameCourse now startRight left right (s.perform act).2 t) :
    SameCourse startLeft startRight (act :: left) right s t where
  answers := by
    rw [answersOf_cons, not_isRequest_of_isExpire hact]
    exact h.answers
  parts   := fun last hl hr => h.parts last (past_cons hnow hl).2 hr

/-- A request is performed on both sides. -/
theorem request (hact : act.isRequest = true) (hnow : act.instant? = some now)
    (hanswer : (s.perform act).1 = (t.perform act).1)
    (h : SameCourse now now left right (s.perform act).2 (t.perform act).2) :
    SameCourse startLeft startRight (act :: left) (act :: right) s t where
  answers := by rw [answersOf_cons, answersOf_cons, if_pos hact, if_pos hact, hanswer, h.answers]
  parts   := fun last hl hr => h.parts last (past_cons hnow hl).2 (past_cons hnow hr).2

end SameCourse

/-- A course begins with a removal or with a request, or it is empty. -/
theorem Course.head (h : Course start left s) :
    left = [] ∨ (∃ act rest, left = act :: rest ∧ act.isExpire = true) ∨
      ∃ act rest, left = act :: rest ∧ act.isRequest = true := by
  cases left with
  | nil => exact .inl rfl
  | cons act rest =>
    rcases h.kinds act List.mem_cons_self with hact | hact
    · exact .inr (.inr ⟨act, rest, rfl, hact⟩)
    · exact .inr (.inl ⟨act, rest, rfl, hact⟩)

/-- Courses with the same requests, from partitions that are indistinct from the later of both
starts on, come to the same. -/
theorem sameCourse (hleft : Course startLeft left s) (hright : Course startRight right t)
    (hsame : left.filter (·.isRequest) = right.filter (·.isRequest))
    (h : ∀ now, startLeft ≤ now → startRight ≤ now → s.part.Indistinct now t.part) :
    SameCourse startLeft startRight left right s t := by
  obtain ⟨total, htotal⟩ : ∃ total, left.length + right.length = total := ⟨_, rfl⟩
  induction total using Nat.strongRecOn generalizing left right s t startLeft startRight with
  | ind total ih =>
    have hremoval {act : Partition.Operation} {rest : List Partition.Operation}
        (hact : act.isExpire = true) :
        (act :: rest).filter (·.isRequest) = rest.filter (·.isRequest) :=
      List.filter_cons_of_neg (by simp [not_isRequest_of_isExpire hact])
    -- a side that begins with a removal takes this step alone
    have hstepLeft (hhead : ∃ act rest, left = act :: rest ∧ act.isExpire = true) :
        SameCourse startLeft startRight left right s t := by
      obtain ⟨act, rest, rfl, hact⟩ := hhead
      obtain ⟨now, hnow, hle, -, hrest⟩ := hleft.cons
      refine SameCourse.removal hact hnow ?_
      refine ih _ ?_ hrest hright (by rw [← hsame, hremoval hact]) ?_ rfl
      · rw [← htotal]
        simp
      · intro later hl hr
        exact ((indistinct_of_isExpire hact hnow s).mono hl).trans
          (h later (UInt64.le_trans hle hl) hr)
    have hstepRight (hhead : ∃ act rest, right = act :: rest ∧ act.isExpire = true) :
        SameCourse startLeft startRight left right s t := by
      obtain ⟨act, rest, rfl, hact⟩ := hhead
      obtain ⟨now, hnow, hle, -, hrest⟩ := hright.cons
      refine (SameCourse.removal hact hnow (SameCourse.symm ?_)).symm
      refine ih _ ?_ hleft hrest (by rw [hsame, hremoval hact]) ?_ rfl
      · rw [← htotal]
        simp
      · intro later hl hr
        exact (h later hl (UInt64.le_trans hle hr)).trans
          ((indistinct_of_isExpire hact hnow t).mono hr).symm
    rcases hleft.head with rfl | hhead | ⟨act, restLeft, rfl, hact⟩
    · rcases hright.head with rfl | hhead | ⟨act, rest, rfl, hact⟩
      · exact ⟨rfl, fun now hl hr => h now (hl _ List.mem_cons_self) (hr _ List.mem_cons_self)⟩
      · exact hstepRight hhead
      · rw [List.filter_cons_of_pos hact] at hsame
        cases hsame
    · exact hstepLeft hhead
    · rcases hright.head with rfl | hhead | ⟨act', restRight, rfl, hact'⟩
      · rw [List.filter_cons_of_pos hact] at hsame
        cases hsame
      · exact hstepRight hhead
      · -- both sides begin with a request, which is the same one
        rw [List.filter_cons_of_pos hact, List.filter_cons_of_pos hact'] at hsame
        obtain ⟨rfl, hrests⟩ := List.cons.inj hsame
        obtain ⟨now, hnow, hle, hroom, hl⟩ := hleft.cons
        obtain ⟨now', hnow', hle', hroom', hr⟩ := hright.cons
        obtain rfl : now = now' := Option.some.inj (hnow.symm.trans hnow')
        have hstep := concur_perform hact hnow (h now hle hle') hroom hroom'
        refine SameCourse.request hact hnow hstep.answer ?_
        refine ih _ ?_ hl hr hrests (fun later hl _ => hstep.part.mono hl) rfl
        rw [← htotal]
        simp
        omega

/-- Two copies of a partition that have the same live entries at some instant, and two runs with
the same requests from then on, in which expired keys are removed at any time and no write is
refused for lack of room: the requests have the same answers, and whenever the same requests have
been performed the live entries are the same. -/
theorem expiry_unobservable (hsettings : s.part.settings = t.part.settings)
    (hliving : s.part.living start = t.part.living start)
    (hleft : Course start left s) (hright : Course start right t)
    (hsame : left.filter (·.isRequest) = right.filter (·.isRequest)) :
    answersOf left s = answersOf right t ∧
      ∀ doneLeft doneRight, doneLeft <+: left → doneRight <+: right →
        doneLeft.filter (·.isRequest) = doneRight.filter (·.isRequest) →
        ∀ now, Partition.Operation.Past start doneLeft now →
          Partition.Operation.Past start doneRight now →
          (performAll doneLeft s).2.part.living now =
            (performAll doneRight t).2.part.living now := by
  have hstart : ∀ now, start ≤ now → start ≤ now → s.part.Indistinct now t.part :=
    fun now hle _ => Partition.Indistinct.mono ⟨hsettings, hliving⟩ hle
  refine ⟨(sameCourse hleft hright hsame hstart).answers, ?_⟩
  rintro doneLeft doneRight ⟨moreLeft, rfl⟩ ⟨moreRight, rfl⟩ hdone now hl hr
  exact ((sameCourse hleft.of_append hright.of_append hdone hstart).parts now hl hr).living

/-- A partition whose entries expire after ten milliseconds, with what some writes left in it. -/
def aged (writes : List Partition.Operation) : Site :=
  (performAll writes
    ((Node.bare {}).site
      (.create [112] { createDate := (Node.bare {}).today, interval := 10 } {}))).2

/-- One entry has been there for so long that it expired, another one has not. -/
def withStale : Site :=
  aged [.putMany [([97], [1])] .upsert 0, .putMany [([98], [2, 2])] .upsert 15]

/-- The same live entry, beside two that expired. -/
def withOtherStale : Site :=
  aged
    [ .putMany [([99], [3]), ([100], [4])] .upsert 2, .putMany [([98], [2, 2])] .upsert 15 ]

/-- Requests about keys that have expired in one of the partitions or the other, or do so
meanwhile. -/
def requests : List Partition.Operation :=
  [ .get [97] 20 true true, .putMany [([99], [5])] .ifNotExists 21, .increment [100] 7 22,
    .ttl [98] 23, .touch [98] 25, .getMany [[98], [99]] 30, .deleteMany [[97], [100]] 33,
    .scanKeys .any 10 0 40 ]

/-- What had expired is removed before the first request, or it is met by the requests; the integer
that expires meanwhile is met by a request, or it is removed before. -/
theorem expiry_unobservable_requests :
    withStale.part.entries.size = 2 ∧ withOtherStale.part.entries.size = 3 ∧
      (answersOf (.expire [[97]] 20 :: requests) withStale).map Prod.snd =
        [ .ok (.payload none), .ok (.count 1), .ok (.integer 7), .ok (.lifetime (some 2)),
          .ok .done, .ok (.pairs [([98], [2, 2]), ([99], [5])]), .ok (.count 0),
          .ok (.page ⟨[[98], [99]], none⟩) ] ∧
      answersOf (.expire [[97]] 20 :: requests) withStale =
        answersOf (requests.take 6 ++ .expire [[100]] 33 :: requests.drop 6) withOtherStale ∧
      (performAll (.expire [[97]] 20 :: requests) withStale).2.part.living 40 =
        (performAll (requests.take 6 ++ .expire [[100]] 33 :: requests.drop 6)
          withOtherStale).2.part.living 40 := by
  have hleft : Course 20 (.expire [[97]] 20 :: requests) withStale := by
    refine ⟨by decide, by unfold Partition.Operation.Onward; decide, ?_⟩
    have hresults : (performAll (.expire [[97]] 20 :: requests) withStale).1 =
        [ .ok (.count 1), .ok (.payload none), .ok (.count 1), .ok (.integer 7),
          .ok (.lifetime (some 2)), .ok .done, .ok (.pairs [([98], [2, 2]), ([99], [5])]),
          .ok (.count 0), .ok (.page ⟨[[98], [99]], none⟩) ] := by cbv
    rw [hresults]
    simp [Roomy]
  have hright : Course 20 (requests.take 6 ++ .expire [[100]] 33 :: requests.drop 6)
      withOtherStale := by
    refine ⟨by decide, by unfold Partition.Operation.Onward; decide, ?_⟩
    have hresults : (performAll (requests.take 6 ++ .expire [[100]] 33 :: requests.drop 6)
        withOtherStale).1 =
        [ .ok (.payload none), .ok (.count 1), .ok (.integer 7), .ok (.lifetime (some 2)),
          .ok .done, .ok (.pairs [([98], [2, 2]), ([99], [5])]), .ok (.count 1), .ok (.count 0),
          .ok (.page ⟨[[98], [99]], none⟩) ] := by cbv
    rw [hresults]
    simp [Roomy]
  have hsame : (Partition.Operation.expire [[97]] 20 :: requests).filter (·.isRequest) =
      (requests.take 6 ++ .expire [[100]] 33 :: requests.drop 6).filter (·.isRequest) := rfl
  have hsettings : withStale.part.settings = withOtherStale.part.settings := by cbv
  have hrows : (withStale.part.living 20).rows = (withOtherStale.part.living 20).rows := by cbv
  have hliving : withStale.part.living 20 = withOtherStale.part.living 20 :=
    Table.ext_get? fun key => by rw [Table.get?, hrows, Table.get?]
  obtain ⟨hanswers, hparts⟩ := expiry_unobservable hsettings hliving hleft hright hsame
  refine ⟨by cbv, by cbv, by cbv, hanswers, ?_⟩
  refine hparts _ _ (List.prefix_refl _) (List.prefix_refl _) hsame 40 ?_ ?_
  · simp [Partition.Operation.Past, Partition.Operation.instant?, requests]
  · simp [Partition.Operation.Past, Partition.Operation.instant?, requests]

end Site

end CacheNode
