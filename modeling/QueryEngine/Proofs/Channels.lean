import QueryEngine.Execution.Channel
import QueryEngine.Proofs.Run

/-!
# What comes through a channel

Messages that are on their way wait in the channel or are still owed by the worker. No action of the
worker changes their sequence, except that a cancelled or deserted worker may leave some out. What
the consumer has been answered and what is on its way are therefore the messages of the stream that
is pulled inline, and after a cancellation the first of them.
-/

set_option autoImplicit false

namespace QueryEngine

namespace Message

/-- How a consumer is answered that finds a cancellation. -/
def cancellation : Message := .failed .cancelled

/-- The messages but for those that report a cancellation. -/
def uncancelled (ms : List Message) : List Message := ms.filter (· ≠ cancellation)

theorem uncancelled_append (ms ns : List Message) :
    uncancelled (ms ++ ns) = uncancelled ms ++ uncancelled ns :=
  List.filter_append ..

/-- A row is no report of a cancellation. -/
theorem uncancelled_rows (us : List Tuple) : uncancelled (us.map row) = us.map row := by
  rw [uncancelled, List.filter_eq_self]
  intro m hm
  obtain ⟨u, _, rfl⟩ := List.mem_map.1 hm
  rfl

theorem tuples_uncancelled (ms : List Message) :
    (uncancelled ms).filterMap tuple? = ms.filterMap tuple? := by
  induction ms with
  | nil => rfl
  | cons m ms ih =>
    by_cases hm : m = cancellation
    · subst hm
      exact ih
    · have hcons : uncancelled (m :: ms) = m :: uncancelled ms := by
        simp [uncancelled, hm]
      rw [hcons, List.filterMap_cons, List.filterMap_cons, ih]

end Message

open Message

/-! ## The messages of a stream -/

namespace TupleStream

theorem messages_eq (t : TupleStream) (s : RunState) : t.messages s = (t.pull s).messages := by
  cases t with
  | ended => rfl
  | of pull => rfl

/-- What a consumer would be answered if it pulled the stream of a group inline. -/
def answers (group : GroupId) (t : TupleStream) (s : RunState) : List Message :=
  (t.onWorker group).messages s

theorem answers_eq (group : GroupId) (t : TupleStream) (s : RunState) :
    t.answers group s = ((t.pull s).onWorker group).messages := by
  rw [answers, messages_eq, pull_onWorker]

/-- Every stream answers with tuples and then once with something else. -/
theorem answers_shape (group : GroupId) (t : TupleStream) : ∀ s,
    ∃ (us : List Tuple) (last : Message),
      t.answers group s = us.map .row ++ [last] ∧ last.isLast = true := by
  induction t using TupleStream.induct with
  | step t ih =>
    intro s
    have rests := ih s
    rw [answers_eq]
    generalize t.pull s = r at rests
    cases r with
    | finished s' rest => exact ⟨[], .finished, rfl, rfl⟩
    | failed e s' => exact ⟨[], .failed e, rfl, rfl⟩
    | crashed c s' rest => exact ⟨[], .failed (.workerLost group), rfl, rfl⟩
    | row u s' rest =>
      obtain ⟨us, last, he, hlast⟩ := rests u s' rest rfl s'
      exact ⟨u :: us, last, congrArg (Message.row u :: ·) he, hlast⟩

/-- A worker hands on the messages of its stream, and its loss if it crashes. -/
theorem answers_eq_messages (group : GroupId) (t : TupleStream) : ∀ s,
    t.answers group s = t.messages s ∨
      t.answers group s = t.messages s ++ [.failed (.workerLost group)] := by
  induction t using TupleStream.induct with
  | step t ih =>
    intro s
    have rests := ih s
    rw [answers_eq, messages_eq]
    generalize t.pull s = r at rests
    cases r with
    | finished s' rest => exact .inl rfl
    | failed e s' => exact .inl rfl
    | crashed c s' rest => exact .inr rfl
    | row u s' rest =>
      rcases rests u s' rest rfl s' with he | he
      · exact .inl (congrArg (Message.row u :: ·) he)
      · exact .inr (congrArg (Message.row u :: ·) he)

theorem tuples_answers (group : GroupId) (t : TupleStream) (s : RunState) :
    (t.answers group s).filterMap tuple? = (t.messages s).filterMap tuple? := by
  rcases answers_eq_messages group t s with he | he
  · rw [he]
  · rw [he, List.filterMap_append]
    exact List.append_nil _

end TupleStream

/-! ## On their way -/

namespace Worker

/-- The messages that a worker has still to send. -/
def sends : Worker → List Message
  | ready t s | pulling t s => t.messages s
  | sending m next | refused m next => m :: (next.map fun x => x.1.messages x.2).getD []
  | leaving _ | gone _ => []

/-- What the consumer has still to be answered because of a worker; the end of a crashed one shows
as its loss. -/
def owes (group : GroupId) : Worker → List Message
  | ready t s | pulling t s => t.answers group s
  | sending m next | refused m next => m :: (next.map fun x => x.1.answers group x.2).getD []
  | leaving crashed | gone crashed => if crashed then [.failed (.workerLost group)] else []

theorem owes_ofReply (group : GroupId) (r : Reply) :
    (ofReply r).owes group = (r.onWorker group).messages := by
  cases r with
  | row u s rest => rfl
  | finished s rest => rfl
  | failed e s => rfl
  | crashed c s rest => rfl

theorem sends_ofReply (r : Reply) : (ofReply r).sends = r.messages := by
  cases r with
  | row u s rest => rfl
  | finished s rest => rfl
  | failed e s => rfl
  | crashed c s rest => rfl

theorem owes_afterSending (group : GroupId) (next : Option (TupleStream × RunState)) :
    (afterSending next).owes group = (next.map fun x => x.1.answers group x.2).getD [] := by
  cases next <;> rfl

theorem sends_afterSending (next : Option (TupleStream × RunState)) :
    (afterSending next).sends = (next.map fun x => x.1.messages x.2).getD [] := by
  cases next <;> rfl

theorem isGone_iff {w : Worker} : w.isGone = true ↔ ∃ crashed, w = .gone crashed := by
  cases w <;> simp [isGone]

end Worker

namespace Channel

variable {c c' : Channel}

/-- The messages on their way to the consumer, the next one first. -/
def owed (c : Channel) : List Message := c.waiting ++ c.worker.owes c.group

/-- The messages of the stream itself among them. -/
def carried (c : Channel) : List Message := c.waiting ++ c.worker.sends

/-- What an action of the worker may do to a channel. -/
structure Carries (c c' : Channel) : Prop where
  same : c' = { c with worker := c'.worker, waiting := c'.waiting }
  gone : ∀ crashed, c.worker = .gone crashed → c' = c
  all : c.cancelled = false → c.released = false → c'.owed = c.owed
  some : c.cancelled = false → c'.owed <+: c.owed
  others : uncancelled c'.owed <+: uncancelled c.owed
  own : ∀ m ∈ c'.carried, m ∈ c.carried ∨ m = cancellation

namespace Carries

theorem refl (c : Channel) : c.Carries c :=
  ⟨rfl, fun _ _ => rfl, fun _ _ => rfl, fun _ => List.prefix_rfl, List.prefix_rfl, fun _ => .inl⟩

/-- The worker goes on without a change to the messages. -/
theorem keeping {w : Worker} (hgone : ∀ crashed, c.worker ≠ .gone crashed)
    (howes : w.owes c.group = c.worker.owes c.group) (hsends : w.sends = c.worker.sends) :
    c.Carries { c with worker := w } := by
  have howed : Channel.owed { c with worker := w } = c.owed := congrArg (c.waiting ++ ·) howes
  have hcarried : Channel.carried { c with worker := w } = c.carried :=
    congrArg (c.waiting ++ ·) hsends
  refine ⟨rfl, fun b hb => absurd hb (hgone b), fun _ _ => howed, fun _ => ?_, ?_, fun m hm => ?_⟩
  · exact howed ▸ List.prefix_rfl
  · exact howed ▸ List.prefix_rfl
  · exact .inl (hcarried ▸ hm)

/-- A worker that is cancelled or deserted stops; what it has not sent is lost. -/
theorem stopping (hgone : ∀ crashed, c.worker ≠ .gone crashed)
    (hstop : c.cancelled = true ∨ c.released = true) :
    c.Carries { c with worker := .leaving false } := by
  have howed : Channel.owed { c with worker := .leaving false } = c.waiting := List.append_nil _
  have hcarried : Channel.carried { c with worker := .leaving false } = c.waiting :=
    List.append_nil _
  refine ⟨rfl, fun b hb => absurd hb (hgone b), fun hc hr => ?_, fun _ => ?_, ?_, fun m hm => ?_⟩
  · rcases hstop with h | h
    · exact absurd hc (by simp [h])
    · exact absurd hr (by simp [h])
  · rw [howed]
    exact List.prefix_append _ _
  · rw [howed, owed, uncancelled_append]
    exact List.prefix_append _ _
  · rw [hcarried] at hm
    exact .inl (List.mem_append_left _ hm)

/-- The worker looks at the cancellation before it goes on. -/
theorem looking {w : Worker} (hgone : ∀ crashed, c.worker ≠ .gone crashed)
    (howes : w.owes c.group = c.worker.owes c.group) (hsends : w.sends = c.worker.sends) :
    c.Carries { c with worker := if c.cancelled then .leaving false else w } := by
  by_cases hc : c.cancelled = true
  · rw [if_pos hc]
    exact .stopping hgone (.inl hc)
  · rw [if_neg hc]
    exact .keeping hgone howes hsends

end Carries

theorem look_carries (c : Channel) : c.Carries c.look := by
  unfold look
  split
  · rename_i t s hw
    exact .looking (by simp [hw]) (by simp [hw, Worker.owes]) (by simp [hw, Worker.sends])
  · rename_i m next hw
    exact .looking (by simp [hw]) (by simp [hw, Worker.owes]) (by simp [hw, Worker.sends])
  · exact .refl c

/-- A pull that is interrupted reports the cancellation and nothing else. -/
theorem pull_carries (interrupted : Bool) (c : Channel) : c.Carries (c.pull interrupted) := by
  unfold pull
  split
  · rename_i t s hw
    by_cases hi : (interrupted && c.cancelled) = true
    · rw [if_pos hi]
      have hc : c.cancelled = true := by
        rw [Bool.and_eq_true] at hi
        exact hi.2
      refine ⟨rfl, fun b hb => by simp [hw] at hb, fun h => ?_, fun h => ?_, ?_, fun m hm => ?_⟩
      · exact absurd h (by simp [hc])
      · exact absurd h (by simp [hc])
      · rw [owed, owed, uncancelled_append, uncancelled_append]
        refine (List.prefix_append_right_inj _).2 ?_
        exact List.nil_prefix
      · rcases List.mem_append.1 hm with hm | hm
        · exact .inl (List.mem_append_left _ hm)
        · exact .inr (List.mem_singleton.1 hm)
    · rw [if_neg hi]
      refine .keeping (by simp [hw]) ?_ ?_
      · rw [Worker.owes_ofReply, hw, Worker.owes, TupleStream.answers_eq]
      · rw [Worker.sends_ofReply, hw, Worker.sends, TupleStream.messages_eq]
  · exact .refl c

/-- A message that is sent joins the end of those that wait. -/
theorem send_carries (c : Channel) : c.Carries c.send := by
  unfold send
  split
  · rename_i m next hw
    by_cases hr : c.released = true
    · rw [if_pos hr]
      exact .stopping (by simp [hw]) (.inr hr)
    · rw [if_neg hr]
      split
      · have howed : Channel.owed
            { c with waiting := c.waiting ++ [m], worker := .afterSending next } = c.owed := by
          rw [owed, owed, Worker.owes_afterSending, hw, Worker.owes, List.append_assoc]
          rfl
        have hcarried : Channel.carried
            { c with waiting := c.waiting ++ [m], worker := .afterSending next } = c.carried := by
          rw [carried, carried, Worker.sends_afterSending, hw, Worker.sends, List.append_assoc]
          rfl
        refine ⟨rfl, fun b hb => by simp [hw] at hb, fun _ _ => howed, fun _ => ?_, ?_,
          fun m hm => ?_⟩
        · exact howed ▸ List.prefix_rfl
        · exact howed ▸ List.prefix_rfl
        · exact .inl (hcarried ▸ hm)
      · exact .keeping (by simp [hw]) (by simp [hw, Worker.owes]) (by simp [hw, Worker.sends])
  · exact .refl c

theorem leave_carries (c : Channel) : c.Carries c.leave := by
  unfold leave
  split
  · rename_i crashed hw
    exact .keeping (by simp [hw]) (by simp [hw, Worker.owes]) (by simp [hw, Worker.sends])
  · exact .refl c

/-! ## The consumer's part -/

theorem receive_of_ne (h : c.consumer ≠ .asking) : c.receive = (c, none) := by
  unfold receive
  split
  · exact absurd ‹_› h
  · rfl

theorem receive_ended (h : c.consumer = .asking) (he : c.ended = true) :
    c.receive = (c, some .finished) := by
  simp [receive, h, he]

theorem receive_cons {m : Message} {rest : List Message} (h : c.consumer = .asking)
    (he : c.ended = false) (hw : c.waiting = m :: rest) :
    c.receive = ({ c with waiting := rest, ended := m.isLast }, some m) := by
  simp [receive, h, he, hw]

theorem receive_nil (h : c.consumer = .asking) (he : c.ended = false) (hw : c.waiting = [])
    (hg : c.worker.isGone = false) : c.receive = (c, none) := by
  simp [receive, h, he, hw, hg]

theorem receive_gone (h : c.consumer = .asking) (he : c.ended = false) (hw : c.waiting = [])
    (hg : c.worker.isGone = true) :
    c.receive = ({ c with ended := true, consumer := .cutOff }, none) := by
  simp [receive, h, he, hw, hg]

theorem check_asking (h : c.consumer = .asking) : c.check = (c, none) := by
  simp [check, h]

theorem check_timedOut (h : c.consumer = .timedOut) : c.check =
    ({ c with consumer := .asking }, if c.cancelled then some cancellation else none) := by
  simp [check, h, cancellation]

theorem check_cutOff (h : c.consumer = .cutOff) : c.check =
    ({ c with consumer := .asking },
      some (if c.cancelled then cancellation else .failed (.workerLost c.group))) := by
  unfold check
  rw [h]
  by_cases hc : c.cancelled = true
  · simp [hc, cancellation]
  · simp [hc]

theorem act_receive (h : c.released = false) : c.act .receive = c.receive :=
  if_neg (by simp [h])

theorem act_check (h : c.released = false) : c.act .check = c.check :=
  if_neg (by simp [h])

/-! ## What has been answered -/

/-- Only tuples and reports of a cancellation have been answered so far. With the messages on their
way they are what the stream comes to inline. -/
structure Accounts (inline own : List Message) (c : Channel) (given : List Message) : Prop where
  rows : ∀ m ∈ given, m.isLast = true → m = cancellation ∧ c.cancelled = true
  all : c.cancelled = false → c.released = false → given ++ c.owed = inline
  some : c.cancelled = false → given ++ c.owed <+: inline
  others : uncancelled (given ++ c.owed) <+: uncancelled inline
  own : ∀ m ∈ c.carried, m ∈ own ∨ m = cancellation

/-- The answers are the first messages of the stream, but for reports of a cancellation. -/
structure Ordered (inline own : List Message) (c : Channel) (given : List Message) : Prop where
  some : c.cancelled = false → given <+: inline
  others : uncancelled given <+: uncancelled inline
  lost : .failed (.workerLost c.group) ∈ given →
    .failed (.workerLost c.group) ∈ own ∨ c.worker = .gone true

/-- The last answer has been given. -/
structure Settled (inline own : List Message) (c : Channel) (given : List Message) : Prop
    extends Ordered inline own c given where
  ended : c.ended = true
  consumer : c.consumer = .asking
  last : ∃ before m, given = before ++ [m] ∧ m.isLast = true

/-- How the answers stand to the messages of the stream, by what the consumer knows. -/
inductive Tracks (inline own : List Message) (c : Channel) : List Message → Prop
  | asking {given} : c.ended = false → c.consumer ≠ .cutOff → Accounts inline own c given →
      Tracks inline own c given
  | cutOff {given} (crashed) : c.consumer = .cutOff → c.ended = true → c.waiting = [] →
      c.worker = .gone crashed → Accounts inline own c given → Tracks inline own c given
  | settled {given} (k) : Settled inline own c given →
      Tracks inline own c (given ++ List.replicate k .finished)

variable {inline own given : List Message}

namespace Accounts

theorem ordered (h : Accounts inline own c given) : Ordered inline own c given := by
  have hfirst : given <+: given ++ c.owed := List.prefix_append _ _
  refine ⟨fun hn => hfirst.trans (h.some hn), (hfirst.filter _).trans h.others, fun hlost => ?_⟩
  cases (h.rows _ hlost rfl).1

theorem carries (h : Accounts inline own c given) (hc : c.Carries c') :
    Accounts inline own c' given := by
  have hcancelled : c'.cancelled = c.cancelled := by rw [hc.same]
  have hreleased : c'.released = c.released := by rw [hc.same]
  constructor
  · rw [hcancelled]
    exact h.rows
  · rw [hcancelled, hreleased]
    intro hn hr
    rw [hc.all hn hr]
    exact h.all hn hr
  · rw [hcancelled]
    intro hn
    exact ((List.prefix_append_right_inj given).2 (hc.some hn)).trans (h.some hn)
  · refine List.IsPrefix.trans ?_ h.others
    rw [uncancelled_append, uncancelled_append]
    exact (List.prefix_append_right_inj _).2 hc.others
  · intro m hm
    rcases hc.own m hm with hm | hm
    · exact h.own m hm
    · exact .inr hm

/-- The oldest message becomes an answer. -/
theorem answered {m : Message} {rest : List Message} (h : Accounts inline own c given)
    (hw : c.waiting = m :: rest) :
    (c.cancelled = false → given ++ [m] <+: inline) ∧
      uncancelled (given ++ [m]) <+: uncancelled inline := by
  have hfirst : given ++ [m] <+: given ++ c.owed := by
    rw [owed, hw]
    exact ⟨rest ++ c.worker.owes c.group, by simp⟩
  refine ⟨fun hn => hfirst.trans (h.some hn), List.IsPrefix.trans ?_ h.others⟩
  exact hfirst.filter _

theorem received {m : Message} {rest : List Message} (h : Accounts inline own c given)
    (hw : c.waiting = m :: rest) (hm : m.isLast = false) (ended : Bool) :
    Accounts inline own { c with waiting := rest, ended := ended } (given ++ [m]) := by
  have howed : given ++ [m] ++ Channel.owed { c with waiting := rest, ended := ended } =
      given ++ c.owed := by
    simp [owed, hw]
  constructor
  · intro n hn hlast
    rcases List.mem_append.1 hn with hn | hn
    · exact h.rows n hn hlast
    · rw [List.mem_singleton.1 hn, hm] at hlast
      cases hlast
  · intro hn hr
    rw [howed]
    exact h.all hn hr
  · intro hn
    rw [howed]
    exact h.some hn
  · rw [howed]
    exact h.others
  · intro n hn
    refine h.own n ?_
    rw [carried, hw]
    exact List.mem_cons_of_mem _ hn

/-- Only a crashed worker leaves a consumer without a last message when nothing is cancelled. -/
theorem crashed (h : Accounts inline own c given) (hinline : ∃ m ∈ inline, m.isLast = true)
    (hn : c.cancelled = false) (hr : c.released = false) (hw : c.waiting = []) {crashed : Bool}
    (hgone : c.worker = .gone crashed) :
    crashed = true ∧ given ++ [.failed (.workerLost c.group)] = inline := by
  have hall := h.all hn hr
  rw [owed, hw, hgone, List.nil_append, Worker.owes] at hall
  cases crashed with
  | true => exact ⟨rfl, hall⟩
  | false =>
    obtain ⟨m, hm, hlast⟩ := hinline
    have hgiven : m ∈ given := by simpa [← hall] using hm
    have := (h.rows m hgiven hlast).2
    rw [hn] at this
    cases this

end Accounts

/-- A worker that goes on after the last answer changes nothing about it. -/
theorem Settled.carries (h : Settled inline own c given) (hc : c.Carries c') :
    Settled inline own c' given := by
  have hgroup : c'.group = c.group := by rw [hc.same]
  have hcancelled : c'.cancelled = c.cancelled := by rw [hc.same]
  have hended : c'.ended = c.ended := by rw [hc.same]
  have hconsumer : c'.consumer = c.consumer := by rw [hc.same]
  refine ⟨⟨hcancelled ▸ h.some, h.others, ?_⟩, hended ▸ h.ended, hconsumer ▸ h.consumer, h.last⟩
  rw [hgroup]
  intro hlost
  rcases h.lost hlost with ho | hg
  · exact .inl ho
  · rw [hc.gone true hg]
    exact .inr hg

namespace Tracks

theorem carries (h : Tracks inline own c given) (hc : c.Carries c') :
    Tracks inline own c' given := by
  have hended : c'.ended = c.ended := by rw [hc.same]
  have hconsumer : c'.consumer = c.consumer := by rw [hc.same]
  cases h with
  | asking he hn h => exact .asking (hended ▸ he) (hconsumer ▸ hn) (h.carries hc)
  | cutOff crashed hn he hw hg h =>
    rw [hc.gone crashed hg]
    exact .cutOff crashed hn he hw hg h
  | settled k h => exact .settled k (h.carries hc)

theorem receive (h : Tracks inline own c given) :
    Tracks inline own c.receive.1 (given ++ c.receive.2.toList) := by
  cases h with
  | cutOff crashed hn he hw hg h =>
    rw [receive_of_ne (by simp [hn]), Option.toList_none, List.append_nil]
    exact .cutOff crashed hn he hw hg h
  | @settled given k h =>
    have hrepeat : List.replicate k Message.finished ++ [.finished] =
        List.replicate (k + 1) .finished := List.replicate_succ'.symm
    rw [receive_ended h.consumer h.ended, Option.toList_some, List.append_assoc, hrepeat]
    exact .settled (k + 1) h
  | asking he hn h =>
    by_cases hasking : c.consumer = .asking
    · cases hw : c.waiting with
      | cons m rest =>
        rw [receive_cons hasking he hw, Option.toList_some]
        cases hm : m.isLast with
        | false => exact .asking rfl hn (h.received hw hm false)
        | true =>
          obtain ⟨hsome, hothers⟩ := h.answered hw
          rw [← List.append_nil (given ++ [m])]
          refine .settled 0 ⟨⟨hsome, hothers, fun hlost => ?_⟩, rfl, hasking, given, m, rfl, hm⟩
          -- The last message is one of the stream, unless it reports a cancellation.
          rcases List.mem_append.1 hlost with hlost | hlost
          · cases (h.rows _ hlost rfl).1
          · have hfirst : .failed (.workerLost c.group) = m := List.mem_singleton.1 hlost
            have hcarried : .failed (.workerLost c.group) ∈ c.carried := by
              rw [carried, hw, hfirst]
              exact List.mem_cons_self
            rcases h.own _ hcarried with ho | hc
            · exact .inl ho
            · cases hc
      | nil =>
        cases hg : c.worker.isGone with
        | false =>
          rw [receive_nil hasking he hw hg, Option.toList_none, List.append_nil]
          exact .asking he hn h
        | true =>
          obtain ⟨crashed, hgone⟩ := Worker.isGone_iff.1 hg
          rw [receive_gone hasking he hw hg, Option.toList_none, List.append_nil]
          exact .cutOff crashed rfl rfl hw hgone ⟨h.rows, h.all, h.some, h.others, h.own⟩
    · rw [receive_of_ne hasking, Option.toList_none, List.append_nil]
      exact .asking he hn h

theorem timeout (h : Tracks inline own c given) : Tracks inline own c.timeout given := by
  unfold Channel.timeout
  split
  · rename_i hwait
    obtain ⟨hconsumer, he, -, -⟩ := hwait
    cases h with
    | asking _ _ h => exact .asking he (by simp) ⟨h.rows, h.all, h.some, h.others, h.own⟩
    | cutOff crashed hn => exact absurd hconsumer (by simp [hn])
    | settled k h => exact absurd he (by simp [h.ended])
  · exact h

theorem check (h : Tracks inline own c given) (hinline : ∃ m ∈ inline, m.isLast = true)
    (hr : c.released = false) : Tracks inline own c.check.1 (given ++ c.check.2.toList) := by
  have hreport (ms : List Message) : uncancelled (given ++ [cancellation] ++ ms) =
      uncancelled (given ++ ms) := by
    rw [uncancelled_append, uncancelled_append, uncancelled_append]
    exact congrArg (· ++ uncancelled ms) (List.append_nil _)
  cases h with
  | settled k h =>
    rw [check_asking h.consumer, Option.toList_none, List.append_nil]
    exact .settled k h
  | asking he hn h =>
    cases hconsumer : c.consumer with
    | cutOff => exact absurd hconsumer hn
    | asking =>
      rw [check_asking hconsumer, Option.toList_none, List.append_nil]
      exact .asking he hn h
    | timedOut =>
      have hasking : Consumer.asking ≠ .cutOff := fun h => nomatch h
      rw [check_timedOut hconsumer]
      by_cases hc : c.cancelled = true
      · rw [if_pos hc, Option.toList_some]
        refine .asking he hasking ⟨fun m hm hlast => ?_, fun hn => ?_, fun hn => ?_, ?_, h.own⟩
        · rcases List.mem_append.1 hm with hm | hm
          · exact h.rows m hm hlast
          · exact ⟨List.mem_singleton.1 hm, hc⟩
        · exact absurd hc (by simp [show c.cancelled = false from hn])
        · exact absurd hc (by simp [show c.cancelled = false from hn])
        · have hothers := h.others
          rw [← hreport] at hothers
          exact hothers
      · rw [if_neg hc, Option.toList_none, List.append_nil]
        exact .asking he hasking ⟨h.rows, h.all, h.some, h.others, h.own⟩
  | cutOff crashed hn he hw hg h =>
    rw [check_cutOff hn, Option.toList_some, ← List.append_nil (given ++ _)]
    by_cases hc : c.cancelled = true
    · rw [if_pos hc]
      refine .settled 0 ⟨⟨fun hn => ?_, ?_, fun hlost => ?_⟩, he, rfl, given, _, rfl, rfl⟩
      · exact absurd hc (by simp [show c.cancelled = false from hn])
      · have hgiven := hreport []
        rw [List.append_nil, List.append_nil] at hgiven
        have hfirst : uncancelled given <+: uncancelled inline :=
          ((List.prefix_append given _).filter _).trans h.others
        rw [← hgiven] at hfirst
        exact hfirst
      · rcases List.mem_append.1 hlost with hlost | hlost
        · cases (h.rows _ hlost rfl).1
        · cases List.mem_singleton.1 hlost
    · obtain ⟨rfl, hall⟩ := h.crashed hinline (by simpa using hc) hr hw hg
      rw [if_neg hc]
      refine .settled 0 ⟨⟨fun _ => ?_, ?_, fun _ => .inr hg⟩, he, rfl, given, _, rfl, rfl⟩
      · exact hall ▸ List.prefix_rfl
      · exact hall ▸ List.prefix_rfl

theorem release (h : Tracks inline own c given) :
    Tracks inline own { c with released := true } given := by
  have haccounts (h : Accounts inline own c given) :
      Accounts inline own { c with released := true } given :=
    ⟨h.rows, (fun _ hr => nomatch hr), h.some, h.others, h.own⟩
  cases h with
  | asking he hn h => exact .asking he hn (haccounts h)
  | cutOff crashed hn he hw hg h => exact .cutOff crashed hn he hw hg (haccounts h)
  | settled k h => exact .settled k ⟨⟨h.some, h.others, h.lost⟩, h.ended, h.consumer, h.last⟩

theorem cancel (h : Tracks inline own c given) :
    Tracks inline own { c with cancelled := true } given := by
  have haccounts (h : Accounts inline own c given) :
      Accounts inline own { c with cancelled := true } given :=
    ⟨fun m hm hlast => ⟨(h.rows m hm hlast).1, rfl⟩, (fun hn => nomatch hn),
      (fun hn => nomatch hn), h.others, h.own⟩
  cases h with
  | asking he hn h => exact .asking he hn (haccounts h)
  | cutOff crashed hn he hw hg h => exact .cutOff crashed hn he hw hg (haccounts h)
  | settled k h =>
    exact .settled k ⟨⟨(fun hn => nomatch hn), h.others, h.lost⟩, h.ended, h.consumer, h.last⟩

/-- Whatever happens next, the answers stay what they have to be. -/
theorem act (h : Tracks inline own c given) (hinline : ∃ m ∈ inline, m.isLast = true)
    (a : ChannelAction) : Tracks inline own (c.act a).1 (given ++ (c.act a).2.toList) := by
  have hworker {c' : Channel} (hc : c.Carries c') :
      Tracks inline own c' (given ++ (none : Option Message).toList) := by
    rw [Option.toList_none, List.append_nil]
    exact h.carries hc
  have hsame : Tracks inline own c (given ++ (none : Option Message).toList) := hworker (.refl c)
  cases a with
  | look => exact hworker (look_carries c)
  | pull interrupted => exact hworker (pull_carries interrupted c)
  | send => exact hworker (send_carries c)
  | leave => exact hworker (leave_carries c)
  | release =>
    simp only [Channel.act, Option.toList_none, List.append_nil]
    exact h.release
  | cancel =>
    simp only [Channel.act, Option.toList_none, List.append_nil]
    exact h.cancel
  | receive =>
    simp only [Channel.act]
    split
    · exact hsame
    · exact h.receive
  | timeout =>
    simp only [Channel.act]
    split
    · exact hsame
    · rw [Option.toList_none, List.append_nil]
      exact h.timeout
  | check =>
    simp only [Channel.act]
    split
    · exact hsame
    · rename_i hr
      exact h.check hinline (by simpa using hr)

theorem run (hinline : ∃ m ∈ inline, m.isLast = true) (actions : List ChannelAction) :
    ∀ {c : Channel} {given : List Message}, Tracks inline own c given →
      Tracks inline own (c.run actions).1 (given ++ (c.run actions).2) := by
  induction actions with
  | nil =>
    intro c given h
    rw [Channel.run, List.append_nil]
    exact h
  | cons a rest ih =>
    intro c given h
    simp only [Channel.run, ← List.append_assoc]
    exact ih (h.act hinline a)

end Tracks

/-! ## Progress -/

/-- What actions can come to, with the answers on the way. -/
def Reaches (c : Channel) (answers : List Message) (c' : Channel) : Prop :=
  ∃ actions, c.run actions = (c', answers)

namespace Reaches

variable {c'' : Channel} {ms ns : List Message}

theorem act {a : ChannelAction} {m : Option Message} (h : c.act a = (c', m)) :
    c.Reaches m.toList c' := by
  refine ⟨[a], ?_⟩
  rw [run, run, h, List.append_nil]

theorem trans (h : c.Reaches ms c') (h' : c'.Reaches ns c'') : c.Reaches (ms ++ ns) c'' := by
  obtain ⟨actions, h⟩ := h
  obtain ⟨more, h'⟩ := h'
  refine ⟨actions ++ more, ?_⟩
  induction actions generalizing c ms with
  | nil =>
    cases h
    exact h'
  | cons a rest ih =>
    rw [run] at h
    obtain ⟨hlast, rfl⟩ := Prod.mk.inj h
    have hrest := ih (Prod.ext hlast rfl)
    rw [List.cons_append, run, hrest, List.append_assoc]

end Reaches

/-- A consumer that waits for the next message while nothing has been cancelled. -/
structure Awaits (c : Channel) : Prop where
  consumer : c.consumer = .asking
  ended : c.ended = false
  released : c.released = false
  cancelled : c.cancelled = false
  room : 0 < c.capacity

/-- The next message can be delivered. -/
def Delivers (c : Channel) : Prop :=
  ∀ m rest, c.owed = m :: rest →
    ∃ c', c.Reaches [m] c' ∧ (m.isLast = false → c'.Awaits ∧ c'.owed = rest)

namespace Delivers

/-- It is enough that it can be delivered after an action that answers nothing. -/
theorem before {a : ChannelAction} (ha : c.act a = (c', none)) (howed : c'.owed = c.owed)
    (h : c'.Delivers) : c.Delivers := by
  intro m rest hm
  obtain ⟨c'', hc'', hnext⟩ := h m rest (howed.trans hm)
  exact ⟨c'', (Reaches.act ha).trans hc'', hnext⟩

theorem waiting (h : c.Awaits) {m : Message} {ms : List Message} (hw : c.waiting = m :: ms) :
    c.Delivers := by
  intro n rest hn
  rw [owed, hw, List.cons_append] at hn
  obtain ⟨rfl, rfl⟩ := List.cons.inj hn
  have hact : c.act .receive = ({ c with waiting := ms, ended := m.isLast }, some m) := by
    rw [act_receive h.released, receive_cons h.consumer h.ended hw]
  refine ⟨_, Reaches.act hact, fun hm => ⟨⟨h.consumer, hm, h.released, h.cancelled, h.room⟩, rfl⟩⟩

theorem gone (h : c.Awaits) (hw : c.waiting = []) {crashed : Bool}
    (hg : c.worker = .gone crashed) : c.Delivers := by
  intro m rest hm
  rw [owed, hw, hg, List.nil_append, Worker.owes] at hm
  cases crashed with
  | false => cases hm
  | true =>
    obtain ⟨rfl, rfl⟩ := List.cons.inj hm
    have hreceive : c.act .receive = ({ c with ended := true, consumer := .cutOff }, none) := by
      rw [act_receive h.released,
        receive_gone h.consumer h.ended hw (Worker.isGone_iff.2 ⟨true, hg⟩)]
    have hcut : Channel.released { c with ended := true, consumer := .cutOff } = false := h.released
    have hcheck : Channel.act { c with ended := true, consumer := .cutOff } .check =
        ({ c with ended := true, consumer := .asking },
          some (.failed (.workerLost c.group))) := by
      rw [act_check hcut, check_cutOff rfl, if_neg (by simp [h.cancelled])]
    exact ⟨_, (Reaches.act hreceive).trans (Reaches.act hcheck), fun hlast => nomatch hlast⟩

theorem sending (h : c.Awaits) (hw : c.waiting = []) {m : Message}
    {next : Option (TupleStream × RunState)} (hs : c.worker = .sending m next) : c.Delivers := by
  have hact : c.act .send =
      ({ c with waiting := [m], worker := .afterSending next }, none) := by
    simp [act, send, hs, hw, h.released, h.room]
  refine .before hact ?_ (.waiting ⟨h.consumer, h.ended, h.released, h.cancelled, h.room⟩ rfl)
  rw [owed, owed, hw, hs, Worker.owes_afterSending]
  rfl

theorem leaving (h : c.Awaits) (hw : c.waiting = []) {crashed : Bool}
    (hl : c.worker = .leaving crashed) : c.Delivers := by
  have hact : c.act .leave = ({ c with worker := .gone crashed }, none) := by
    simp [act, leave, hl]
  refine .before hact ?_ (.gone ⟨h.consumer, h.ended, h.released, h.cancelled, h.room⟩ hw rfl)
  rw [owed, owed, hl]
  rfl

theorem pulling (h : c.Awaits) (hw : c.waiting = []) {t : TupleStream} {s : RunState}
    (hp : c.worker = .pulling t s) : c.Delivers := by
  have hact : c.act (.pull false) = ({ c with worker := .ofReply (t.pull s) }, none) := by
    simp [act, pull, hp]
  have howed : Channel.owed { c with worker := .ofReply (t.pull s) } = c.owed := by
    rw [owed, owed, Worker.owes_ofReply, hp, Worker.owes, TupleStream.answers_eq]
  have hawaits : Awaits { c with worker := .ofReply (t.pull s) } :=
    ⟨h.consumer, h.ended, h.released, h.cancelled, h.room⟩
  refine .before hact howed ?_
  generalize t.pull s = r at hawaits
  cases r with
  | row u s' rest => exact .sending hawaits hw rfl
  | finished s' rest => exact .sending hawaits hw rfl
  | failed e s' => exact .sending hawaits hw rfl
  | crashed c s' rest => exact .leaving hawaits hw rfl

theorem of_awaits (h : c.Awaits) : c.Delivers := by
  cases hw : c.waiting with
  | cons m ms => exact .waiting h hw
  | nil =>
    cases hworker : c.worker with
    | sending m next => exact .sending h hw hworker
    | leaving crashed => exact .leaving h hw hworker
    | gone crashed => exact .gone h hw hworker
    | pulling t s => exact .pulling h hw hworker
    | ready t s =>
      have hact : c.act .look = ({ c with worker := .pulling t s }, none) := by
        simp [act, look, hworker, h.cancelled]
      refine .before hact ?_
        (.pulling ⟨h.consumer, h.ended, h.released, h.cancelled, h.room⟩ hw rfl)
      rw [owed, owed, hworker]
      rfl
    | refused m next =>
      have hact : c.act .look = ({ c with worker := .sending m next }, none) := by
        simp [act, look, hworker, h.cancelled]
      refine .before hact ?_
        (.sending ⟨h.consumer, h.ended, h.released, h.cancelled, h.room⟩ hw rfl)
      rw [owed, owed, hworker]
      rfl

end Delivers

/-- A consumer that goes on gets all messages that are on their way. -/
theorem Awaits.reaches_all {us : List Tuple} {last : Message} :
    ∀ {c : Channel}, c.Awaits → c.owed = us.map .row ++ [last] → ∃ c', c.Reaches c.owed c' := by
  induction us with
  | nil =>
    intro c h howed
    obtain ⟨c', hc', -⟩ := Delivers.of_awaits h last [] howed
    exact ⟨c', howed ▸ hc'⟩
  | cons u us ih =>
    intro c h howed
    obtain ⟨c', hc', hnext⟩ :=
      Delivers.of_awaits h (.row u) (us.map Message.row ++ [last]) howed
    obtain ⟨hawaits, howed'⟩ := hnext rfl
    obtain ⟨c'', hc''⟩ := ih hawaits howed'
    refine ⟨c'', ?_⟩
    rw [howed]
    rw [howed'] at hc''
    exact hc'.trans hc''

/-- As long as nothing is cancelled, the consumer can get every message of the stream. -/
theorem Tracks.progress {us : List Tuple} {last : Message} (hlast : last.isLast = true)
    (h : Tracks (us.map .row ++ [last]) own c given) (hn : c.cancelled = false)
    (hr : c.released = false) (hroom : 0 < c.capacity) :
    ∃ more, us.map .row ++ [last] <+: given ++ (c.run more).2 := by
  have hrow : ∀ m ∈ us.map Message.row, m.isLast = false := by
    intro m hm
    obtain ⟨u, _, rfl⟩ := List.mem_map.1 hm
    rfl
  have hmem : ∃ m ∈ us.map Message.row ++ [last], m.isLast = true :=
    ⟨last, List.mem_append_right _ List.mem_cons_self, hlast⟩
  cases h with
  | @settled given k h =>
    -- The answers hold the last message, which has nothing behind it.
    obtain ⟨rows, m, rfl, hm⟩ := h.last
    have hall : rows ++ [m] = us.map .row ++ [last] := by
      rcases List.prefix_concat_iff.1 (h.some hn) with he | hp
      · exact he
      · have := hrow m (hp.subset (List.mem_append_right _ List.mem_cons_self))
        rw [hm] at this
        cases this
    refine ⟨[], ?_⟩
    rw [hall, Channel.run, List.append_nil]
    exact List.prefix_append _ _
  | cutOff crashed hcut he hw hg h =>
    obtain ⟨-, hall⟩ := h.crashed hmem hn hr hw hg
    have hcheck : c.act .check =
        ({ c with consumer := .asking }, some (.failed (.workerLost c.group))) := by
      rw [act_check hr, check_cutOff hcut, if_neg (by simp [hn])]
    have hgiven : us.map .row ++ [last] = given ++ (c.run [.check]).2 := by
      rw [Channel.run, Channel.run, hcheck, Option.toList_some, List.append_nil, hall]
    exact ⟨[.check], hgiven ▸ List.prefix_rfl⟩
  | asking he hne h =>
    have hall := h.all hn hr
    obtain ⟨vs, howed⟩ : ∃ vs : List Tuple, c.owed = vs.map .row ++ [last] := by
      rcases List.eq_nil_or_concat c.owed with hnil | ⟨ms, m, howed⟩
      · rw [hnil, List.append_nil] at hall
        obtain ⟨m, hm, hl⟩ := hmem
        have := (h.rows m (hall ▸ hm) hl).2
        rw [hn] at this
        cases this
      · rw [howed, List.concat_eq_append, ← List.append_assoc] at hall
        obtain ⟨hrows, hm⟩ := List.append_inj' hall rfl
        obtain ⟨vs, ws, rfl, -, hws⟩ := List.map_eq_append_iff.1 hrows.symm
        refine ⟨ws, ?_⟩
        rw [howed, List.concat_eq_append, hws, hm]
    have hreaches {c₁ : Channel} (hstart : c.Reaches [] c₁) (hawaits : c₁.Awaits)
        (hsame : c₁.owed = c.owed) : ∃ more, us.map .row ++ [last] <+: given ++ (c.run more).2 := by
      obtain ⟨c', hc'⟩ := hawaits.reaches_all (hsame.trans howed)
      obtain ⟨more, hmore⟩ := hstart.trans hc'
      have hgiven : us.map .row ++ [last] = given ++ (c.run more).2 := by
        rw [hmore, List.nil_append, hsame, hall]
      exact ⟨more, hgiven ▸ List.prefix_rfl⟩
    cases hconsumer : c.consumer with
    | cutOff => exact absurd hconsumer hne
    | asking => exact hreaches ⟨[], rfl⟩ ⟨hconsumer, he, hr, hn, hroom⟩ rfl
    | timedOut =>
      have hcheck : c.act .check = ({ c with consumer := .asking }, none) := by
        rw [act_check hr, check_timedOut hconsumer, if_neg (by simp [hn])]
      exact hreaches (Reaches.act hcheck) ⟨rfl, he, hr, hn, hroom⟩ rfl

/-! ## All interleavings -/

/-- What an action can change of the surroundings of a channel. -/
structure Surrounded (c c' : Channel) (actions : List ChannelAction) : Prop where
  group : c'.group = c.group
  capacity : c'.capacity = c.capacity
  cancelled : .cancel ∉ actions → c'.cancelled = c.cancelled
  released : .release ∉ actions → c'.released = c.released

theorem act_surrounded (c : Channel) (a : ChannelAction) : Surrounded c (c.act a).1 [a] := by
  have hworker {c' : Channel} (hc : c.Carries c') : Surrounded c c' [a] := by
    rw [hc.same]
    exact ⟨rfl, rfl, fun _ => rfl, fun _ => rfl⟩
  cases a with
  | look => exact hworker (look_carries c)
  | pull interrupted => exact hworker (pull_carries interrupted c)
  | send => exact hworker (send_carries c)
  | leave => exact hworker (leave_carries c)
  | release => exact ⟨rfl, rfl, fun _ => rfl, fun h => absurd List.mem_cons_self h⟩
  | cancel => exact ⟨rfl, rfl, fun h => absurd List.mem_cons_self h, fun _ => rfl⟩
  | receive =>
    simp only [act, receive]
    repeat' split
    all_goals exact ⟨rfl, rfl, fun _ => rfl, fun _ => rfl⟩
  | timeout =>
    simp only [act, timeout]
    repeat' split
    all_goals exact ⟨rfl, rfl, fun _ => rfl, fun _ => rfl⟩
  | check =>
    simp only [act, check]
    repeat' split
    all_goals exact ⟨rfl, rfl, fun _ => rfl, fun _ => rfl⟩

theorem run_surrounded (actions : List ChannelAction) :
    ∀ c : Channel, Surrounded c (c.run actions).1 actions := by
  induction actions with
  | nil => exact fun c => ⟨rfl, rfl, fun _ => rfl, fun _ => rfl⟩
  | cons a rest ih =>
    intro c
    have ha := act_surrounded c a
    have hrest := ih (c.act a).1
    refine ⟨hrest.group.trans ha.group, hrest.capacity.trans ha.capacity, fun h => ?_, fun h => ?_⟩
    · rw [List.mem_cons, not_or] at h
      exact (hrest.cancelled h.2).trans (ha.cancelled (by simp [h.1]))
    · rw [List.mem_cons, not_or] at h
      exact (hrest.released h.2).trans (ha.released (by simp [h.1]))

/-- What a consumer has been answered over the channel of a group after some actions, against the
stream `t` that is pulled inline in the state `s`. -/
structure Lossless (group : GroupId) (t : TupleStream) (s : RunState)
    (actions : List ChannelAction) (c : Channel) (answers : List Message) : Prop where
  /-- The tuples come in order and none is left out. -/
  tuples : answers.filterMap tuple? <+: (t.messages s).filterMap tuple?
  /-- Without a cancellation the answers are those of the stream that is pulled inline, and the end
  is repeated after the last of them. Otherwise reports of the cancellation come in between. -/
  inOrder : ∃ given k, answers = given ++ List.replicate k .finished ∧
    (0 < k → ∃ before last, given = before ++ [last] ∧ last.isLast = true) ∧
    (.cancel ∉ actions → given <+: t.answers group s) ∧ uncancelled given <+: t.answers group s
  /-- A worker is lost only where it has died. -/
  lost : .failed (.workerLost group) ∈ answers →
    .failed (.workerLost group) ∈ t.messages s ∨ c.worker = .gone true
  /-- Every message can be received as long as nothing is cancelled. -/
  progress : .cancel ∉ actions → .release ∉ actions →
    ∃ more, t.answers group s <+: answers ++ (c.run more).2

theorem start_tracks (group : GroupId) (capacity : Nat) (t : TupleStream) (s : RunState) :
    Tracks (t.answers group s) (t.messages s) (start group capacity t s) [] := by
  refine .asking rfl (fun h => nomatch h) ⟨(fun m hm => nomatch hm), fun _ _ => rfl, ?_, ?_, ?_⟩
  · exact fun _ => List.prefix_rfl
  · exact List.prefix_rfl
  · exact fun m hm => .inl hm

/-- The answers are in order until the end is repeated. -/
theorem Tracks.inOrder (h : Tracks inline own c given) :
    ∃ first k, given = first ++ List.replicate k .finished ∧
      (0 < k → ∃ before last, first = before ++ [last] ∧ last.isLast = true) ∧
      Ordered inline own c first := by
  have hopen (h : Ordered inline own c given) : ∃ first k,
      given = first ++ List.replicate k .finished ∧
        (0 < k → ∃ before last, first = before ++ [last] ∧ last.isLast = true) ∧
        Ordered inline own c first :=
    ⟨given, 0, (List.append_nil given).symm, fun hk => absurd hk (Nat.lt_irrefl 0), h⟩
  cases h with
  | asking he hn h => exact hopen h.ordered
  | cutOff crashed hn he hw hg h => exact hopen h.ordered
  | settled k h => exact ⟨_, k, rfl, fun _ => h.last, h.toOrdered⟩

/-- Over every interleaving a channel is a lossless queue. -/
theorem run_lossless (group : GroupId) {capacity : Nat} (hroom : 0 < capacity) (t : TupleStream)
    (s : RunState) (actions : List ChannelAction) :
    Lossless group t s actions ((start group capacity t s).run actions).1
      ((start group capacity t s).run actions).2 := by
  obtain ⟨us, last, hshape, hlast⟩ := t.answers_shape group s
  have hmem : ∃ m ∈ t.answers group s, m.isLast = true :=
    ⟨last, hshape ▸ List.mem_append_right _ List.mem_cons_self, hlast⟩
  have htracks := (start_tracks group capacity t s).run hmem actions
  have hfixed := run_surrounded actions (start group capacity t s)
  rw [List.nil_append] at htracks
  generalize (start group capacity t s).run actions = done at htracks hfixed
  obtain ⟨c, answers⟩ := done
  obtain ⟨given, k, hanswers, hended, horder⟩ := htracks.inOrder
  have hgroup : c.group = group := hfixed.group
  have hall : uncancelled (t.answers group s) <+: t.answers group s := by
    rw [hshape, uncancelled_append, uncancelled_rows]
    refine (List.prefix_append_right_inj _).2 ?_
    by_cases hc : last = cancellation
    · subst hc
      exact List.nil_prefix
    · simp [uncancelled, hc]
  have hfirst : uncancelled given <+: t.answers group s := horder.others.trans hall
  constructor
  · have htuples := hfirst.filterMap tuple?
    rw [tuples_uncancelled, TupleStream.tuples_answers] at htuples
    have hrepeat : (List.replicate k Message.finished).filterMap tuple? = [] := by
      simp [tuple?]
    simp only at hanswers
    rw [hanswers, List.filterMap_append, hrepeat, List.append_nil]
    exact htuples
  · exact ⟨given, k, hanswers, hended, fun hn => horder.some (hfixed.cancelled hn), hfirst⟩
  · intro hm
    rw [← hgroup]
    refine horder.lost ?_
    simp only at hanswers
    rw [hanswers] at hm
    rcases List.mem_append.1 hm with hm | hm
    · rw [hgroup]
      exact hm
    · cases List.eq_of_mem_replicate hm
  · intro hn hr
    rw [hshape] at htracks ⊢
    refine htracks.progress hlast (hfixed.cancelled hn) (hfixed.released hr) ?_
    rw [hfixed.capacity]
    exact hroom

/-- A worker with room for one message, cancelled while it holds the second of three. -/
theorem run_lossless_cancelled :
    let t := TupleStream.ofList [⟨1, [], []⟩, ⟨2, [], []⟩, ⟨3, [], []⟩]
    let s : RunState := ⟨⟨[]⟩, .empty, .empty, 0⟩
    let actions : List ChannelAction := [.look, .pull false, .send, .timeout, .receive, .look,
      .pull false, .send, .look, .pull false, .send, .cancel, .look, .leave, .receive, .receive,
      .check, .receive]
    let done := (start 1 1 t s).run actions
    0 < 1 ∧ Lossless 1 t s actions done.1 done.2 ∧
      done.2 = [.row ⟨1, [], []⟩, .row ⟨2, [], []⟩, cancellation, .finished] :=
  ⟨Nat.one_pos, run_lossless 1 Nat.one_pos _ _ _, by decide⟩

end Channel

end QueryEngine
