/- GID: Finalization/NoEquivocation
   anchors: [extensions/finalization]
   digest: When a voting node that crashes and restarts never votes twice in one step. -/

import BitxorCore.Finalization.FinalizationOrchestrator

set_option autoImplicit false
set_option relaxedAutoImplicit false

namespace BitxorCore.Finalization
open Library Library.Interruptible Library.Interruptible.Program Model List VotingStatus Bytes
open MultiRoundMessageAggregator (create)

namespace StepIdentifier

/-- `StepIdentifier::operator<`. -/
instance : LT StepIdentifier :=
  ⟨fun lhs rhs => if lhs.epoch ≠ rhs.epoch then lhs.epoch < rhs.epoch
    else lhs.pointStage < rhs.pointStage⟩

def rank (step : StepIdentifier) : ℕ := step.epoch.toNat * 2 ^ 32 + step.pointStage.toNat

private theorem lt_iff_rank {lhs rhs : StepIdentifier} : lhs < rhs ↔ lhs.rank < rhs.rank := by
  have left := lhs.pointStage.isLt
  have right := rhs.pointStage.isLt
  change (if lhs.epoch ≠ rhs.epoch then lhs.epoch < rhs.epoch
    else lhs.pointStage < rhs.pointStage) ↔ _
  unfold rank
  split_ifs with differ
  · rw [BitVec.lt_def]
    have : lhs.epoch.toNat ≠ rhs.epoch.toNat := fun same => differ (BitVec.eq_of_toNat_eq same)
    omega
  · rw [BitVec.lt_def, not_not.mp differ]
    omega

variable (epoch point : BitVec 32)

private theorem rank_create_prevote (small : point.toNat < 2 ^ 31) :
    (create epoch point .prevote).rank = epoch.toNat * 2 ^ 32 + 2 * point.toNat := by
  have shifted : (point <<< 1 ||| 0#32).toNat = 2 * point.toNat := by
    rw [BitVec.or_zero, BitVec.toNat_shiftLeft, Nat.shiftLeft_eq]
    omega
  change epoch.toNat * 2 ^ 32 + (point <<< 1 ||| 0#32).toNat = _
  rw [shifted]

private theorem rank_create_precommit (small : point.toNat < 2 ^ 31) :
    (create epoch point .precommit).rank = epoch.toNat * 2 ^ 32 + 2 * point.toNat + 1 := by
  have shifted : (point <<< 1 ||| 1#32).toNat = 2 * point.toNat + 1 := by
    have even : (point <<< 1).toNat = 2 * point.toNat := by
      rw [BitVec.toNat_shiftLeft, Nat.shiftLeft_eq]
      omega
    rw [BitVec.toNat_or, even, BitVec.toNat_ofNat]
    have bit : 1 < 2 ^ 1 := by decide
    exact (Nat.two_pow_add_eq_or_of_lt bit point.toNat).symm
  change epoch.toNat * 2 ^ 32 + (point <<< 1 ||| 1#32).toNat = _
  rw [shifted, Nat.add_assoc]

end StepIdentifier

/-- The place of the first step that the status lets the node send. -/
def VotingStatus.next (status : VotingStatus) : ℕ :=
  status.round.epoch.toNat * 2 ^ 32 + 2 * status.round.point.toNat +
    (if status.hasSentPrecommit then 2 else if status.hasSentPrevote then 1 else 0)

/-- Messages that were sent in the order of their steps, all before a place. -/
structure SentBefore (sent : List FinalizationMessage) (bound : ℕ) : Prop where
  sorted : sent.Pairwise fun earlier later => earlier.stepIdentifier < later.stepIdentifier
  before : ∀ msg ∈ sent, msg.stepIdentifier.rank < bound

variable {sent : List FinalizationMessage} {bound higher : ℕ} {msg : FinalizationMessage}

private theorem SentBefore.mono (ahead : SentBefore sent bound) (le : bound ≤ higher) :
    SentBefore sent higher :=
  ⟨ahead.sorted, fun msg mem => (ahead.before msg mem).trans_le le⟩

private theorem SentBefore.append (ahead : SentBefore sent bound)
    (later : bound ≤ msg.stepIdentifier.rank) :
    SentBefore (sent ++ [msg]) (msg.stepIdentifier.rank + 1) := by
  refine ⟨pairwise_append.mpr ⟨ahead.sorted, pairwise_singleton _ _, ?_⟩, ?_⟩
  · intro earlier mem other single
    rw [mem_singleton.mp single, StepIdentifier.lt_iff_rank]
    exact (ahead.before earlier mem).trans_le later
  · intro other mem
    obtain mem | rfl := (mem_append.mp mem).imp_right mem_singleton.mp
    · exact (ahead.before other mem).trans_le (later.trans (Nat.le_succ _))
    · exact Nat.lt_succ_self _

/-- Whatever a restart reads from the file is ahead of what was sent. -/
structure FileAhead (file : StatusFile) (sent : List FinalizationMessage) : Prop where
  sorted : sent.Pairwise fun earlier later => earlier.stepIdentifier < later.stepIdentifier
  restored : ∀ status, load file = .ok status → SentBefore sent status.next

namespace VotingStatus

private theorem load_chunks (status : VotingStatus) :
    load (some status.chunks.flatten) = .ok status := by
  obtain ⟨⟨epoch, point⟩, prevote, precommit⟩ := status
  have epochBytes := length_word 4 epoch
  have pointBytes := length_word 4 point
  have flat : (chunks ⟨⟨epoch, point⟩, prevote, precommit⟩).flatten =
      word 4 epoch ++ (word 4 point ++ (flag prevote ++ flag precommit)) := by
    simp [chunks]
  rw [flat, load, if_neg (by simp [flag])]
  have front : (word 4 epoch ++ (word 4 point ++ (flag prevote ++ flag precommit))).take
      4 = word 4 epoch := take_left' epochBytes
  have back : (word 4 epoch ++ (word 4 point ++ (flag prevote ++ flag precommit))).drop
      4 = word 4 point ++ (flag prevote ++ flag precommit) := drop_left' epochBytes
  rw [front, back, take_left' pointBytes, ofWord_word, ofWord_word]
  cases prevote <;> cases precommit <;> simp [getD, flag, epochBytes, pointBytes]

private theorem eq_of_load_written {status restored : VotingStatus} {written : List (List ℕ)}
    (start : written <+: status.chunks) (loaded : load (some written.flatten) = .ok restored) :
    restored = status := by
  have complete : written = status.chunks := by
    obtain ⟨rest, eq⟩ := start
    cases rest with
    | nil => rw [← eq, append_nil]
    | cons chunk rest =>
      have size : status.chunks.flatten.length = 10 := by simp [chunks, flag]
      have filled : ∀ chunk ∈ status.chunks, 0 < chunk.length := by simp [chunks, flag]
      have positive := filled chunk (by rw [← eq]; simp)
      rw [← eq, flatten_append, flatten_cons, length_append, length_append]
        at size
      rw [load, if_pos (by omega)] at loaded
      exact absurd loaded nofun
  rw [complete, load_chunks] at loaded
  exact (Except.ok.inj loaded).symm

end VotingStatus

namespace RunningNode

/-- The node gave messages to the sink that its file does not know of. -/
def Exposed (start stop : RunningNode) : Prop := stop.file = start.file ∧ stop.sent ≠ start.sent

instance (start stop : RunningNode) : Decidable (Exposed start stop) :=
  inferInstanceAs (Decidable (_ ∧ _))

/-- After a crash a restart is safe, or the crash came between a message and the save. -/
def CrashSafe (start stop : RunningNode) : Prop :=
  Exposed start stop ∨ FileAhead stop.file stop.sent

/-- A node within a poll before the save, in a round whose point has room for the stage. -/
structure Voting (start node : RunningNode) : Prop where
  file_eq : node.file = start.file
  ahead : SentBefore node.sent node.status.next
  point : node.status.round.point.toNat < 2 ^ 31

structure Settled (node : RunningNode) : Prop where
  ahead : SentBefore node.sent node.status.next
  file : FileAhead node.file node.sent

variable {start node : RunningNode} {cfg : FinalizationConfiguration} {input : PollInput}

private theorem crashSafe_of_file_eq (settled : Settled start) (same : node.file = start.file) :
    CrashSafe start node := by
  by_cases nothing : node.sent = start.sent
  · right
    rw [same, nothing]
    exact settled.file
  · exact .inl ⟨same, nothing⟩

private theorem write_meets (node : RunningNode) (chunks : List (List ℕ)) :
    Meets (chunks.foldl (fun program chunk => seq program (action fun node : RunningNode =>
        { node with file := node.file.map (· ++ chunk) }))
        (action fun node => { node with file := some [] })) node
      (fun stop => stop = { node with file := some chunks.flatten })
      (fun stop => stop = node ∨ ∃ written, written <+: chunks ∧
        stop = { node with file := some written.flatten }) := by
  induction chunks using reverseRecOn with
  | nil => exact meets_action rfl (.inl rfl) (.inr ⟨[], prefix_rfl, rfl⟩)
  | append_singleton chunks chunk ih =>
    rw [foldl_append]
    have wider := ih.mono (fun _ => id) fun stop (either : _ ∨ _) => either.imp_right
      fun ⟨written, start, eq⟩ =>
        (⟨written, start.trans (prefix_append _ _), eq⟩ : ∃ written, written <+: chunks ++ [chunk] ∧
            stop = { node with file := some written.flatten })
    refine wider.seq ?_
    rintro _ rfl
    have joined : chunks.flatten ++ chunk = (chunks ++ [chunk]).flatten := by simp
    refine meets_action ?_ (.inr ⟨chunks, prefix_append _ _, rfl⟩)
      (.inr ⟨chunks ++ [chunk], prefix_rfl, ?_⟩)
    · rw [← joined]
      rfl
    · rw [← joined]
      rfl

section
variable (settled : Settled start)
include settled

private theorem save_meets (same : node.file = start.file)
    (ahead : SentBefore node.sent node.status.next) :
    Meets save node Settled (CrashSafe start) := by
  refine meets_branch ((write_meets node node.status.chunks).mono ?_ ?_)
  · rintro _ rfl
    refine ⟨ahead, ahead.sorted, fun status loaded => ?_⟩
    rw [load_chunks] at loaded
    obtain rfl := Except.ok.inj loaded
    exact ahead
  · rintro _ (rfl | ⟨written, start, rfl⟩)
    · exact crashSafe_of_file_eq settled same
    · refine .inr ⟨ahead.sorted, fun status loaded => ?_⟩
      rw [eq_of_load_written start loaded]
      exact ahead

section
variable (voting : Voting start node)
include voting

private theorem process_meets
    {candidate : Option FinalizationMessage} {place : ℕ} (later : node.status.next ≤ place)
    (placed : ∀ msg, candidate = some msg → msg.stepIdentifier.rank = place) :
    Meets (process input candidate) node
      (fun stop => stop.orchestrator = node.orchestrator ∧ stop.file = start.file ∧
        SentBefore stop.sent (place + 1))
      (CrashSafe start) := by
  refine meets_action ⟨rfl, voting.file_eq, ?_⟩ (crashSafe_of_file_eq settled voting.file_eq)
    (crashSafe_of_file_eq settled voting.file_eq)
  cases eligible : candidate.filter input.isEligible with
  | none =>
    rw [Option.toList_none, append_nil]
    exact voting.ahead.mono (later.trans (Nat.le_succ place))
  | some msg =>
    have rank := placed msg (Option.mem_filter_iff.mp eligible).1
    rw [Option.toList_some, ← rank]
    exact voting.ahead.append (later.trans_eq rank.symm)

private theorem sendPrecommit_meets :
    Meets (sendPrecommit cfg input) node (Voting start) (CrashSafe start) := by
  have here := crashSafe_of_file_eq settled voting.file_eq
  refine meets_branch ?_
  split_ifs with already
  · exact meets_skip voting here
  · split
    · exact meets_skip voting here
    · next target _ =>
      have place : node.status.next ≤ node.status.round.epoch.toNat * 2 ^ 32 +
          2 * node.status.round.point.toNat + 1 := by
        rw [VotingStatus.next, if_neg already]
        split_ifs <;> omega
      refine (process_meets settled voting place fun msg made => ?_).seq ?_
      · rw [(prepareMessage_spec made).1]
        exact StepIdentifier.rank_create_precommit _ _ voting.point
      · rintro stop ⟨same, file_eq, ahead⟩
        refine meets_action ⟨file_eq, ?_, ?_⟩ (crashSafe_of_file_eq settled file_eq)
          (crashSafe_of_file_eq settled file_eq)
        · change SentBefore stop.sent (VotingStatus.next
            { stop.orchestrator.votingStatus with hasSentPrecommit := true })
          rw [same, VotingStatus.next, if_pos rfl]
          exact ahead
        · rw [same]
          exact voting.point

private theorem advanceRound_meets : Meets (advanceRound input) node
      (fun stop => stop.file = start.file ∧ SentBefore stop.sent stop.status.next)
      (CrashSafe start) := by
  have here := crashSafe_of_file_eq settled voting.file_eq
  refine meets_branch ?_
  split_ifs
  · refine meets_action ⟨voting.file_eq, voting.ahead.mono ?_⟩ here
      (crashSafe_of_file_eq settled voting.file_eq)
    have point := voting.point
    have succ : (node.status.round.point + 1).toNat = node.status.round.point.toNat + 1 := by
      rw [BitVec.toNat_add]
      exact Nat.mod_eq_of_lt (by change _ + 1 < 2 ^ 32; omega)
    change node.status.next ≤ node.status.round.epoch.toNat * 2 ^ 32 +
      2 * (node.status.round.point + 1).toNat + 0
    rw [succ, VotingStatus.next]
    split_ifs <;> omega
  · exact meets_skip ⟨voting.file_eq, voting.ahead⟩ here

private theorem afterPrevote_meets :
    Meets (seq (sendPrecommit cfg input) (seq (advanceRound input) save)) node Settled
      (CrashSafe start) :=
  (sendPrecommit_meets settled voting).seq fun _ voting =>
    (advanceRound_meets settled voting).seq fun _ ⟨file_eq, ahead⟩ =>
      save_meets settled file_eq ahead

end

end

private theorem createPrevote_step {statistics : FinalizationStatistics} {view : BlockStorageView}
    {keys : MessageSigner} {round : FinalizationRound}
    (made : createPrevote cfg statistics view keys round = .ok (some msg)) :
    msg.stepIdentifier = StepIdentifier.create round.epoch round.point .prevote := by
  unfold createPrevote at made
  cases loaded : loadPrevoteHashChain cfg view round statistics.height.toNat with
  | error reason =>
    rw [loaded] at made
    exact absurd made nofun
  | ok hashes =>
    rw [loaded] at made
    exact (prepareMessage_spec (Except.ok.inj made)).1

private theorem sendPrevote_meets (settled : Settled start) (voting : Voting start node)
    (nothing : node.sent = start.sent)
    (ordered : node.status.hasSentPrecommit = true → node.status.hasSentPrevote = true) :
    Meets (sendPrevote cfg input
      (seq (sendPrecommit cfg input) (seq (advanceRound input) save))) node Settled
      (CrashSafe start) := by
  have here := crashSafe_of_file_eq settled voting.file_eq
  refine meets_branch ?_
  split_ifs with can
  · rw [Bool.and_eq_true, Bool.not_eq_true'] at can
    have precommit : node.status.hasSentPrecommit = false :=
      Bool.eq_false_iff.mpr fun sent => by simp [ordered sent] at can
    split
    · refine meets_skip ⟨voting.ahead, ?_⟩ here
      rw [voting.file_eq, nothing]
      exact settled.file
    · next candidate made =>
      have place : node.status.next = node.status.round.epoch.toNat * 2 ^ 32 +
          2 * node.status.round.point.toNat := by
        simp [VotingStatus.next, precommit, can.1]
      refine (process_meets settled voting place.le fun msg same => ?_).seq ?_
      · subst same
        rw [createPrevote_step made]
        exact StepIdentifier.rank_create_prevote _ _ voting.point
      · rintro stop ⟨same, file_eq, ahead⟩
        have safe := crashSafe_of_file_eq settled file_eq
        have marked : Meets (update Orchestrator.markPrevote) stop (Voting start)
            (CrashSafe start) :=
          meets_action ⟨file_eq, ?_, ?_⟩ safe (crashSafe_of_file_eq settled file_eq)
        · exact marked.seq fun _ => afterPrevote_meets settled
        · change SentBefore stop.sent (VotingStatus.next
            { stop.orchestrator.votingStatus with hasSentPrevote := true })
          rw [same]
          have next : VotingStatus.next { node.orchestrator.votingStatus with
              hasSentPrevote := true } = node.status.round.epoch.toNat * 2 ^ 32 +
                2 * node.status.round.point.toNat + 1 := by
            have flag : node.orchestrator.votingStatus.hasSentPrecommit = false := precommit
            simp [VotingStatus.next, flag, status]
          rw [next]
          exact ahead
        · rw [same]
          exact voting.point
  · exact afterPrevote_meets settled voting

structure Ready (node : RunningNode) : Prop where
  point : node.status.round.point.toNat < 2 ^ 31
  ordered : node.status.hasSentPrecommit = true → node.status.hasSentPrevote = true

instance (node : RunningNode) : Decidable (Ready node) :=
  decidable_of_iff (node.status.round.point.toNat < 2 ^ 31 ∧
    (node.status.hasSentPrecommit = true → node.status.hasSentPrevote = true))
    ⟨fun both => ⟨both.1, both.2⟩, fun ready => ⟨ready.point, ready.ordered⟩⟩

structure Beginning (start node : RunningNode) : Prop where
  file_eq : node.file = start.file
  sent_eq : node.sent = start.sent
  ahead : SentBefore node.sent node.status.next
  ready : Ready node

private theorem Beginning.settled (settled : Settled start) (beginning : Beginning start node) :
    Settled node := by
  refine ⟨beginning.ahead, ?_⟩
  rw [beginning.file_eq, beginning.sent_eq]
  exact settled.file

private theorem pollRound_meets (settled : Settled start) (beginning : Beginning start node) :
    Meets (pollRound cfg input) node Settled (CrashSafe start) := by
  have here := crashSafe_of_file_eq settled beginning.file_eq
  refine meets_branch ?_
  split_ifs
  · exact meets_skip (beginning.settled settled) here
  · have started : Meets (branch fun node : RunningNode =>
        if node.orchestrator.stageAdvancer.isNone then
          update fun orchestrator => orchestrator.startRound input.time
        else skip) node (Beginning start) (CrashSafe start) := by
      refine meets_branch ?_
      obtain ⟨file_eq, sent_eq, ahead, point, ordered⟩ := beginning
      split_ifs
      · exact meets_action ⟨file_eq, sent_eq, ahead, point, ordered⟩ here
          (crashSafe_of_file_eq settled file_eq)
      · exact meets_skip ⟨file_eq, sent_eq, ahead, point, ordered⟩ here
    refine started.seq fun stop beginning => ?_
    exact sendPrevote_meets settled
      ⟨beginning.file_eq, beginning.ahead, beginning.ready.point⟩ beginning.sent_eq
      beginning.ready.ordered

private theorem setEpoch_next {orchestrator after : Orchestrator} {epoch : BitVec 32}
    (point : orchestrator.votingStatus.round.point.toNat < 2 ^ 31)
    (set : orchestrator.setEpoch epoch = .ok after) :
    after = orchestrator ∨ after.votingStatus = ⟨⟨epoch, 1⟩, false, false⟩ ∧
      orchestrator.votingStatus.next ≤ after.votingStatus.next := by
  unfold Orchestrator.setEpoch at set
  split_ifs at set with decreased same
  · exact .inl (Except.ok.inj set).symm
  · obtain rfl := Except.ok.inj set
    refine .inr ⟨rfl, ?_⟩
    have differ : epoch.toNat ≠ orchestrator.votingStatus.round.epoch.toNat :=
      fun eq => same (BitVec.eq_of_toNat_eq eq)
    rw [BitVec.lt_def] at decreased
    have first : (1 : BitVec 32).toNat = 1 := rfl
    simp only [VotingStatus.next, first, Bool.false_eq_true, if_false]
    split_ifs <;> omega

/-- A poll of a ready node leaves a settled one, and a crash in it is safe or exposed. -/
private theorem poll_meets (settled : Settled start) (ready : Ready start) :
    Meets (poll cfg input) start Settled (CrashSafe start) := by
  have here : CrashSafe start start := crashSafe_of_file_eq settled rfl
  refine meets_branch ?_
  split
  · exact meets_skip settled here
  · exact meets_skip settled here
  · exact pollRound_meets settled ⟨rfl, rfl, settled.ahead, ready⟩
  · split
    · exact meets_skip settled here
    · next after set =>
      have entered : Meets (update fun _ => after) start (Beginning start) (CrashSafe start) := by
        refine meets_action ?_ here (crashSafe_of_file_eq settled rfl)
        obtain rfl | ⟨fresh, le⟩ := setEpoch_next ready.point set
        · exact ⟨rfl, rfl, settled.ahead, ready⟩
        · refine ⟨rfl, rfl, settled.ahead.mono le, ?_, ?_⟩
          · change after.votingStatus.round.point.toNat < 2 ^ 31
            rw [fresh]
            exact (by decide : (1 : BitVec 32).toNat < 2 ^ 31)
          · change after.votingStatus.hasSentPrecommit = true → _
            rw [fresh]
            exact fun sent => absurd sent Bool.false_ne_true
      exact entered.seq fun _ => pollRound_meets settled

end RunningNode

namespace Node

open RunningNode

/-- A poll begins in a ready node, and a crash does not come between a message and the save. -/
def StepSafe (cfg : FinalizationConfiguration) : Node → NodeEvent → Prop
  | running node, .poll _ => Ready node
  | running node, .crash input count =>
    Ready node ∧ ¬Exposed node ((RunningNode.poll cfg input).interrupted node count)
  | _, _ => True

def RunSafe (cfg : FinalizationConfiguration) : Node → List NodeEvent → Prop
  | _, [] => True
  | node, event :: rest => node.StepSafe cfg event ∧ RunSafe cfg (node.step cfg event) rest

instance (cfg : FinalizationConfiguration) (node : Node) (event : NodeEvent) :
    Decidable (node.StepSafe cfg event) :=
  match node, event with
  | running node, .poll _ => inferInstanceAs (Decidable (Ready node))
  | running _, .crash _ _ => inferInstanceAs (Decidable (_ ∧ _))
  | running _, .restart => inferInstanceAs (Decidable True)
  | stopped _ _, _ => inferInstanceAs (Decidable True)

instance decidableRunSafe (cfg : FinalizationConfiguration) :
    ∀ (node : Node) (events : List NodeEvent), Decidable (RunSafe cfg node events)
  | _, [] => inferInstanceAs (Decidable True)
  | node, event :: rest =>
    have := decidableRunSafe cfg (node.step cfg event) rest
    inferInstanceAs (Decidable (_ ∧ _))

def Consistent : Node → Prop
  | running node => Settled node
  | stopped file sent => FileAhead file sent

variable {cfg : FinalizationConfiguration} {node : Node} {file : StatusFile}

private theorem Consistent.sorted (consistent : node.Consistent) : node.sent.Pairwise
    fun earlier later => earlier.stepIdentifier < later.stepIdentifier := by
  cases node with
  | running node => exact RunningNode.Settled.ahead consistent |>.sorted
  | stopped file sent => exact FileAhead.sorted consistent

private theorem Consistent.step (consistent : node.Consistent) {event : NodeEvent}
    (safe : node.StepSafe cfg event) : (node.step cfg event).Consistent := by
  cases node with
  | running node =>
    cases event with
    | poll input => exact (poll_meets consistent safe).ends
    | crash input count =>
      exact ((poll_meets consistent safe.1).interrupted count).resolve_left safe.2
    | restart => exact consistent
  | stopped file sent =>
    cases event with
    | poll _ => exact consistent
    | crash _ _ => exact consistent
    | restart =>
      change Consistent (boot file sent)
      unfold boot
      split
      · exact consistent
      · next status loaded => exact ⟨FileAhead.restored consistent status loaded, consistent⟩

private theorem Consistent.run (consistent : node.Consistent) {events : List NodeEvent}
    (safe : RunSafe cfg node events) : (node.run cfg events).Consistent := by
  induction events generalizing node with
  | nil => exact consistent
  | cons event rest ih => exact ih (consistent.step safe.1) safe.2

end Node

/-- A node that no crash catches between a message and the save of the status, and that polls only
in rounds whose precommit did not overtake the prevote, sends its messages in the strict order of
their steps and so at most one in a step. -/
theorem votingNode_neverEquivocates (cfg : FinalizationConfiguration) (file : StatusFile)
    (events : List NodeEvent) (safe : Node.RunSafe cfg (.stopped file []) events) :
    let sent := (Node.run cfg (.stopped file []) events).sent
    (sent.Pairwise fun earlier later => earlier.stepIdentifier < later.stepIdentifier) ∧
      ∀ first ∈ sent, ∀ second ∈ sent,
        first.stepIdentifier = second.stepIdentifier → first = second := by
  have start : (Node.stopped file []).Consistent :=
    ⟨List.Pairwise.nil, fun _ _ => ⟨List.Pairwise.nil, fun _ mem =>
      absurd mem not_mem_nil⟩⟩
  have sorted := (start.run safe).sorted
  refine ⟨sorted, fun first firstIn second secondIn same => ?_⟩
  have distinct : ((Node.run cfg (.stopped file []) events).sent.map
      FinalizationMessage.stepIdentifier).Nodup := by
    refine pairwise_map.mpr (sorted.imp fun before eq => ?_)
    rw [eq, StepIdentifier.lt_iff_rank] at before
    exact lt_irrefl _ before
  exact inj_on_of_nodup_map distinct firstIn secondIn same

def exampleVotingConfig : FinalizationConfiguration := ⟨1, 1, 10, 5, 4, 10, 1000, 9, []⟩

/-- A poll at a time, over a chain whose second block has a hash. -/
def exampleInput (time : ℕ) (hash : Hash256) : PollInput where
  time := time
  statistics := ⟨⟨1, 1⟩, 1, 10⟩
  storage := ⟨8, fun height maxHashes => ([10, hash, 30, 40].drop (height - 1)).take maxHashes⟩
  keys := ⟨fun _ => true, fun _ _ => ⟨⟨7, 0⟩, ⟨0, 0⟩⟩⟩
  isEligible _ := true
  roundsView := create ⟨2, 1⟩ ⟨1, 10⟩
  prevoteView := create ⟨2, 1⟩ ⟨1, 10⟩
  precommitView := create ⟨2, 1⟩ ⟨1, 10⟩
  nextRoundView := create ⟨2, 1⟩ ⟨1, 10⟩

def exampleVote (hash : Hash256) : FinalizationMessage :=
  ⟨0, ⟨⟨7, 0⟩, ⟨0, 0⟩⟩, 1, StepIdentifier.create 2 1 .prevote, 1, [10, hash, 30, 40],
    by change 224 + 32 * 4 < 2 ^ 32; decide⟩

/-- The node crashes right after its first prevote; when it polls again the chain has changed. -/
theorem votingNode_equivocates : (Node.run exampleVotingConfig (.stopped none [])
      [.restart, .poll (exampleInput 100 20), .crash (exampleInput 110 20) 1, .restart,
        .poll (exampleInput 200 21), .poll (exampleInput 210 21)]).sent =
      [exampleVote 20, exampleVote 21] ∧
    (exampleVote 20).stepIdentifier = (exampleVote 21).stepIdentifier ∧
    exampleVote 20 ≠ exampleVote 21 := by
  decide +kernel

def exampleRestartedRun : List NodeEvent :=
  [.restart, .poll (exampleInput 100 20), .poll (exampleInput 110 20),
    .crash (exampleInput 120 20) 0, .restart, .poll (exampleInput 200 21),
    .poll (exampleInput 210 21)]

theorem votingNode_neverEquivocates_restarted :
    (Node.run exampleVotingConfig (.stopped none []) exampleRestartedRun).sent = [exampleVote 20] ∧
    (Node.run exampleVotingConfig (.stopped none []) exampleRestartedRun).sent.Pairwise
      fun earlier later => earlier.stepIdentifier < later.stepIdentifier := by
  exact ⟨by decide +kernel, (votingNode_neverEquivocates exampleVotingConfig none
    exampleRestartedRun (by decide +kernel)).1⟩

end BitxorCore.Finalization
