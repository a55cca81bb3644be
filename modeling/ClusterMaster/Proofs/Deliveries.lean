import ClusterMaster.Proofs.Calls

/-!
# What becomes of the events of a queue

Events join a queue at its end and leave it at its head, and only the head is ever handed out. So
the events that were added for a consumer are those that have left its queue and, behind them, those
that are still in it, and the status of each tells whether it was handed out (`Accounted`). What was
handed out therefore comes in the order it was added, each event once; only events that were dropped
unseen have been passed over, and whatever was added before an event has left when it is handed out.

    one action keeps the account of a queue                                       (accounted_after)
    any actions do                                                                  (accounted_run)
    the head is being processed ↔ it was handed out and nothing has left since      (headOut_run)
    any actions, at first without queues: everything is delivered in order       (delivered_inOrder)
-/

namespace ClusterMaster

/-! ## Events of a queue -/

namespace Event

/-- An event that has just been made. -/
def new (pass : Nat) (kind : EventKind) (subscriptions : List Subscription) : Event :=
  { pass, kind, subscriptions }

/-- The event as it was added. -/
def unseen (e : Event) : Event := { e with status := .todo }

/-- The event as it was handed out. -/
def shown (e : Event) : Event := { e with status := .processing }

/-- The event has been handed out. -/
def isSeen (e : Event) : Bool := e.status != .todo

theorem unseen_eq_self {e : Event} (h : e.status = .todo) : e.unseen = e := by
  rw [unseen, ← h]

theorem unseen_shown (e : Event) : e.shown.unseen = e.unseen := rfl

end Event

theorem map_unseen {es : List Event} (h : ∀ e ∈ es, e.status = .todo) : es.map Event.unseen = es :=
  (List.map_congr_left fun e he => Event.unseen_eq_self (h e he)).trans (List.map_id _)

/-- Only the head of a queue may be in the hands of the consumer. -/
structure HeadOnly (es : List Event) : Prop where
  head : ∀ e ∈ es.head?, e.status = .todo ∨ e.status = .processing
  tail : ∀ e ∈ es.tail, e.status = .todo

namespace HeadOnly

theorem nil : HeadOnly [] := ⟨by simp, by simp⟩

theorem of_todo {es : List Event} (h : ∀ e ∈ es, e.status = .todo) : HeadOnly es where
  head e he := .inl (h e (List.mem_of_mem_head? he))
  tail e he := h e (List.mem_of_mem_tail he)

theorem append {es : List Event} (h : HeadOnly es) {e : Event} (he : e.status = .todo) :
    HeadOnly (es ++ [e]) := by
  cases es with
  | nil => exact of_todo (by simpa using he)
  | cons a as =>
    refine ⟨h.head, fun d hd => ?_⟩
    rcases List.mem_append.mp hd with hd | hd
    · exact h.tail d hd
    · rw [List.mem_singleton.mp hd]
      exact he

end HeadOnly

/-- The events of a list that have been handed out, as they were then. -/
def shownOf (es : List Event) : List Event := (es.filter Event.isSeen).map Event.shown

theorem shownOf_append (es es' : List Event) : shownOf (es ++ es') = shownOf es ++ shownOf es' := by
  rw [shownOf, List.filter_append, List.map_append]
  rfl

theorem shownOf_eq_nil {es : List Event} (h : ∀ e ∈ es, e.status = .todo) : shownOf es = [] := by
  have hfilter : es.filter Event.isSeen = [] :=
    List.filter_eq_nil_iff.mpr fun e he => by simp [Event.isSeen, h e he]
  rw [shownOf, hfilter, List.map_nil]

/-- What joins a queue, what is handed out of it and what leaves it, from one time to another. -/
structure Accounted (es joined shown left es' : List Event) : Prop where
  kept : (es ++ joined).map Event.unseen = (left ++ es').map Event.unseen
  shown : shownOf es ++ shown = shownOf (left ++ es')

namespace Accounted

variable {es es' es'' j j' s s' l l' : List Event}

theorem refl (es : List Event) : Accounted es [] [] [] es :=
  ⟨by rw [List.append_nil, List.nil_append], by rw [List.append_nil, List.nil_append]⟩

theorem trans (h : Accounted es j s l es') (h' : Accounted es' j' s' l' es'') :
    Accounted es (j ++ j') (s ++ s') (l ++ l') es'' where
  kept := calc
    (es ++ (j ++ j')).map Event.unseen
      = (es ++ j).map Event.unseen ++ j'.map Event.unseen := by
        rw [← List.append_assoc, List.map_append]
    _ = l.map Event.unseen ++ (es' ++ j').map Event.unseen := by
        rw [h.kept, List.map_append, List.append_assoc, ← List.map_append]
    _ = (l ++ l' ++ es'').map Event.unseen := by
        rw [h'.kept, ← List.map_append, List.append_assoc]
  shown := calc
    shownOf es ++ (s ++ s')
      = shownOf es ++ s ++ s' := (List.append_assoc ..).symm
    _ = shownOf l ++ (shownOf es' ++ s') := by
        rw [h.shown, shownOf_append, List.append_assoc]
    _ = shownOf (l ++ l' ++ es'') := by
        rw [h'.shown, ← shownOf_append, List.append_assoc]

theorem push {e : Event} (es : List Event) (he : e.status = .todo) :
    Accounted es [e] [] [] (es ++ [e]) where
  kept := rfl
  shown := by
    have hnone : shownOf [e] = [] := shownOf_eq_nil (by simpa using he)
    rw [List.nil_append, shownOf_append, hnone]

/-- Nobody has been handed anything of a queue whose head is handed out. -/
theorem deliver {e : Event} {es : List Event} (h : HeadOnly (e :: es)) (he : e.status = .todo) :
    Accounted (e :: es) [] [e.shown] [] (e.shown :: es) where
  kept := by
    rw [List.append_nil]
    rfl
  shown := by
    have hnone : shownOf (e :: es) = [] := shownOf_eq_nil (List.forall_mem_cons.mpr ⟨he, h.tail⟩)
    have hhead : shownOf [e.shown] = [e.shown] := rfl
    have htail : shownOf es = [] := shownOf_eq_nil h.tail
    rw [hnone, List.nil_append, List.nil_append, ← List.singleton_append (l := es), shownOf_append,
      hhead, htail, List.append_nil]

theorem retire {e : Event} (es : List Event) (he : e.status = .processing) :
    Accounted (e :: es) [] [] [{ e with status := .done }] es where
  kept := by
    rw [List.append_nil]
    rfl
  shown := by
    have hseen : e.isSeen = true := by simp [Event.isSeen, he]
    rw [List.append_nil, shownOf, List.filter_cons, if_pos hseen]
    rfl

theorem drop (gone es : List Event) : Accounted (gone ++ es) [] [] gone es where
  kept := by rw [List.append_nil]
  shown := by rw [List.append_nil]

end Accounted

namespace EventQueues

variable {q : EventQueues} {id : String} {e d : Event} {n : Nat}

/-! ## Actions -/

/-- What is done to the queues. -/
inductive Action where
  /-- An event that has just been made joins a queue. -/
  | push (consumer : String) (pass : Nat) (kind : EventKind) (subscriptions : List Subscription)
  | deliver (consumer : String)
  | acknowledge (consumer : String) (pass : Nat)
  | popFirst (consumer : String)
  | clear (consumer : String)
  deriving DecidableEq

/-- Whose queue an action is about. -/
def Action.consumer : Action → String
  | .push c _ _ _ | .deliver c | .acknowledge c _ | .popFirst c | .clear c => c

/-- The queues after an action. -/
def after (q : EventQueues) : Action → EventQueues
  | .push c pass kind subscriptions => q.push c (.new pass kind subscriptions)
  | .deliver c => (q.deliver c).2
  | .acknowledge c pass => (q.acknowledge c pass).2
  | .popFirst c => (q.popFirst c).2
  | .clear c => q.clear c

/-- The event an action adds for a consumer. -/
def joining (id : String) : Action → List Event
  | .push c pass kind subscriptions => if c = id then [.new pass kind subscriptions] else []
  | _ => []

/-- The event an action hands out to a consumer. -/
def delivering (id : String) (q : EventQueues) : Action → List Event
  | .deliver c => if c = id then (q.deliver c).1.toList else []
  | _ => []

/-- The event of a consumer that an acknowledgement takes out. -/
def retiring (id : String) (q : EventQueues) : Action → List Event
  | .acknowledge c pass => if c = id then (q.acknowledge c pass).1.toList else []
  | _ => []

/-- The events of a consumer that are dropped, as they are then. -/
def dropping (id : String) (q : EventQueues) : Action → List Event
  | .popFirst c => if c = id then (q.popFirst c).1.toList else []
  | .clear c => if c = id then q.queue c else []
  | _ => []

/-- The events that leave the queue of a consumer. -/
def leaving (id : String) (q : EventQueues) (a : Action) : List Event :=
  q.retiring id a ++ q.dropping id a

/-! ## Runs -/

/-- The queues after some actions. -/
def run (q : EventQueues) (actions : List Action) : EventQueues := actions.foldl after q

/-- What each action of a run contributes, in order. -/
def collect (f : EventQueues → Action → List Event) (q : EventQueues) : List Action → List Event
  | [] => []
  | a :: as => f q a ++ (q.after a).collect f as

/-- The events that some actions add for a consumer. -/
def added (id : String) (actions : List Action) : List Event := actions.flatMap (joining id)

/-- The events that are handed out to a consumer over a run. -/
def delivered (id : String) (q : EventQueues) (actions : List Action) : List Event :=
  q.collect (delivering id) actions

/-- The events that leave the queue of a consumer over a run. -/
def left (id : String) (q : EventQueues) (actions : List Action) : List Event :=
  q.collect (leaving id) actions

/-- The events of a consumer that are dropped over a run. -/
def dropped (id : String) (q : EventQueues) (actions : List Action) : List Event :=
  q.collect (dropping id) actions

theorem run_append (q : EventQueues) (as bs : List Action) :
    q.run (as ++ bs) = (q.run as).run bs :=
  List.foldl_append ..

theorem collect_append (f : EventQueues → Action → List Event) (q : EventQueues)
    (as bs : List Action) :
    q.collect f (as ++ bs) = q.collect f as ++ (q.run as).collect f bs := by
  induction as generalizing q with
  | nil => rfl
  | cons a as ih =>
    show f q a ++ (q.after a).collect f (as ++ bs) = _
    rw [ih, ← List.append_assoc]
    rfl

/-! ## One action -/

theorem popFirst_fst (q : EventQueues) (c : String) : (q.popFirst c).1 = (q.queue c).head? := by
  unfold popFirst
  cases q.queue c <;> rfl

theorem queue_popFirst (q : EventQueues) (c id : String) :
    (q.popFirst c).2.queue id = if c = id then (q.queue id).tail else q.queue id := by
  unfold popFirst
  split
  · rename_i hq
    split
    · rename_i hc
      rw [← hc, hq]
      rfl
    · rfl
  · rename_i e es hq
    rw [queue_setQueue]
    split
    · rename_i hc
      rw [← hc, hq]
      rfl
    · rfl

/-- An acknowledgement takes out the head if that was handed out and is not of a later pass. -/
theorem acknowledge_spec (q : EventQueues) (c : String) (n : Nat) :
    (∃ e es, q.queue c = e :: es ∧ e.status = .processing ∧ e.pass ≤ n ∧
      q.acknowledge c n = (some { e with status := .done }, q.setQueue c es)) ∨
    ((∀ e ∈ (q.queue c).head?, ¬ (e.status = .processing ∧ e.pass ≤ n)) ∧
      q.acknowledge c n = (none, q)) := by
  unfold acknowledge
  cases hq : q.queue c with
  | nil => exact .inr ⟨by simp, rfl⟩
  | cons e es =>
    by_cases h : e.status = .processing ∧ e.pass ≤ n
    · exact .inl ⟨e, es, rfl, h.1, h.2, by simp only [if_pos h]⟩
    · refine .inr ⟨fun d hd => ?_, by simp only [if_neg h]⟩
      obtain rfl := Option.some.inj hd
      exact h

theorem acknowledge_eq_some_iff : (q.acknowledge id n).1 = some e ↔
    ∃ head ∈ (q.queue id).head?,
      head.status = .processing ∧ head.pass ≤ n ∧ e = { head with status := .done } := by
  rcases q.acknowledge_spec id n with ⟨d, es, hq, hout, hpass, ha⟩ | ⟨hnot, ha⟩
  · rw [ha, hq]
    simp [hout, hpass, eq_comm]
  · rw [ha]
    refine iff_of_false (by simp) ?_
    rintro ⟨head, hd, hout, hpass, -⟩
    exact hnot head hd ⟨hout, hpass⟩

theorem queue_acknowledge (q : EventQueues) (id : String) (n : Nat) :
    (q.acknowledge id n).2.queue id =
      if (q.acknowledge id n).1.isSome then (q.queue id).tail else q.queue id := by
  rcases q.acknowledge_spec id n with ⟨e, es, hq, -, -, ha⟩ | ⟨-, ha⟩
  · rw [ha, hq]
    exact queue_setQueue.trans (if_pos rfl)
  · rw [ha]
    rfl

/-- What is handed out is the head, which was not in hand before. -/
theorem of_deliver (h : HeadOnly (q.queue id)) (he : (q.deliver id).1 = some e) :
    ∃ d rest, q.queue id = d :: rest ∧ d.status = .todo ∧ e = d.shown := by
  rw [deliver_fst] at he
  cases hq : q.queue id with
  | nil =>
    rw [hq] at he
    cases he
  | cons d rest =>
    rw [hq, nextEvent] at he
    rw [hq] at h
    obtain ⟨hout, hshown⟩ := Option.ite_none_left_eq_some.mp he
    exact ⟨d, rest, rfl, (h.head d rfl).resolve_right hout, (Option.some.inj hshown).symm⟩

/-- An action leaves the queues of all others alone. -/
theorem queue_after_of_ne {a : Action} (h : a.consumer ≠ id) :
    (q.after a).queue id = q.queue id := by
  cases a with
  | push c pass kind subscriptions =>
    exact queue_push.trans (if_neg h)
  | deliver c =>
    exact queue_deliver.trans (if_neg h)
  | acknowledge c n =>
    show (q.acknowledge c n).2.queue id = _
    rcases q.acknowledge_spec c n with ⟨e, es, -, -, -, ha⟩ | ⟨-, ha⟩
    · rw [ha]
      exact queue_setQueue.trans (if_neg h)
    · rw [ha]
  | popFirst c =>
    exact (q.queue_popFirst c id).trans (if_neg h)
  | clear c =>
    exact queue_clear.trans (if_neg h)

/-- What an action adds, hands out and takes away is its own consumer's. -/
theorem contributes_of_ne {a : Action} (h : a.consumer ≠ id) :
    joining id a = [] ∧ q.delivering id a = [] ∧ q.leaving id a = [] := by
  cases a with
  | push c pass kind subscriptions => exact ⟨if_neg h, rfl, rfl⟩
  | deliver c => exact ⟨rfl, if_neg h, rfl⟩
  | acknowledge c n => exact ⟨rfl, rfl, (List.append_nil _).trans (if_neg h)⟩
  | popFirst c => exact ⟨rfl, rfl, if_neg h⟩
  | clear c => exact ⟨rfl, rfl, if_neg h⟩

/-! An account of each kind of action, for its own consumer. -/

theorem accounted_push (h : HeadOnly (q.queue id)) (he : e.status = .todo) :
    Accounted (q.queue id) [e] [] [] ((q.push id e).queue id) ∧
      HeadOnly ((q.push id e).queue id) := by
  rw [queue_push, if_pos rfl]
  exact ⟨.push _ he, h.append he⟩

theorem accounted_deliver (h : HeadOnly (q.queue id)) :
    Accounted (q.queue id) [] (q.deliver id).1.toList [] ((q.deliver id).2.queue id) ∧
      HeadOnly ((q.deliver id).2.queue id) := by
  rw [queue_deliver, if_pos rfl, deliver_fst]
  cases hq : q.queue id with
  | nil => exact ⟨.refl _, .nil⟩
  | cons e es =>
    rw [hq] at h
    have hshown : HeadOnly (e.shown :: es) := ⟨fun d hd => .inr (Option.some.inj hd ▸ rfl), h.tail⟩
    rcases h.head e rfl with htodo | hprocessing
    · have hnext : nextEvent (e :: es) = some e.shown := by
        rw [nextEvent, if_neg (by simp [htodo])]
        rfl
      rw [hnext]
      exact ⟨.deliver h htodo, hshown⟩
    · have hsame : e.shown = e := by rw [Event.shown, ← hprocessing]
      have hnext : nextEvent (e :: es) = none := by rw [nextEvent, if_pos hprocessing]
      have hout : handedOut (e :: es) = e :: es := by
        rw [← hsame]
        rfl
      rw [hnext, hout]
      exact ⟨.refl _, h⟩

theorem accounted_acknowledge (h : HeadOnly (q.queue id)) (n : Nat) :
    Accounted (q.queue id) [] [] (q.acknowledge id n).1.toList ((q.acknowledge id n).2.queue id) ∧
      HeadOnly ((q.acknowledge id n).2.queue id) := by
  rcases q.acknowledge_spec id n with ⟨e, es, hq, hprocessing, -, ha⟩ | ⟨-, ha⟩
  · rw [ha, queue_setQueue, if_pos rfl, hq]
    rw [hq] at h
    exact ⟨.retire es hprocessing, .of_todo h.tail⟩
  · rw [ha]
    exact ⟨.refl _, h⟩

theorem accounted_popFirst (h : HeadOnly (q.queue id)) :
    Accounted (q.queue id) [] [] (q.popFirst id).1.toList ((q.popFirst id).2.queue id) ∧
      HeadOnly ((q.popFirst id).2.queue id) := by
  rw [queue_popFirst, if_pos rfl]
  refine ⟨?_, .of_todo h.tail⟩
  unfold popFirst
  cases q.queue id with
  | nil => exact .refl _
  | cons e es => exact .drop [e] es

theorem accounted_clear :
    Accounted (q.queue id) [] [] (q.queue id) ((q.clear id).queue id) ∧
      HeadOnly ((q.clear id).queue id) := by
  rw [queue_clear, if_pos rfl]
  have h := Accounted.drop (q.queue id) []
  rw [List.append_nil] at h
  exact ⟨h, .nil⟩

/-- An action on a queue keeps its account and its order. -/
theorem accounted_after (h : HeadOnly (q.queue id)) (a : Action) :
    Accounted (q.queue id) (joining id a) (q.delivering id a) (q.leaving id a)
      ((q.after a).queue id) ∧ HeadOnly ((q.after a).queue id) := by
  by_cases hc : a.consumer = id
  · -- what the action contributes is tested for its consumer, which is the one in question
    cases a with
    | push c pass kind subscriptions =>
      obtain rfl : c = id := hc
      have hjoins : joining c (.push c pass kind subscriptions) = [.new pass kind subscriptions] :=
        if_pos rfl
      rw [hjoins]
      exact accounted_push h rfl
    | deliver c =>
      obtain rfl : c = id := hc
      have hgives : q.delivering c (.deliver c) = (q.deliver c).1.toList := if_pos rfl
      rw [hgives]
      exact accounted_deliver h
    | acknowledge c n =>
      obtain rfl : c = id := hc
      have hretires : q.leaving c (.acknowledge c n) = (q.acknowledge c n).1.toList :=
        (List.append_nil _).trans (if_pos rfl)
      rw [hretires]
      exact accounted_acknowledge h n
    | popFirst c =>
      obtain rfl : c = id := hc
      have hdrops : q.leaving c (.popFirst c) = (q.popFirst c).1.toList := if_pos rfl
      rw [hdrops]
      exact accounted_popFirst h
    | clear c =>
      obtain rfl : c = id := hc
      have hdrops : q.leaving c (.clear c) = q.queue c := if_pos rfl
      rw [hdrops]
      exact accounted_clear
  · obtain ⟨hj, hd, hl⟩ := contributes_of_ne (q := q) hc
    rw [hj, hd, hl, queue_after_of_ne hc]
    exact ⟨.refl _, h⟩

/-! ## Any actions -/

theorem accounted_run (h : HeadOnly (q.queue id)) (actions : List Action) :
    Accounted (q.queue id) (added id actions) (q.delivered id actions) (q.left id actions)
      ((q.run actions).queue id) ∧ HeadOnly ((q.run actions).queue id) := by
  induction actions generalizing q with
  | nil => exact ⟨.refl _, h⟩
  | cons a as ih =>
    obtain ⟨hstep, hnext⟩ := accounted_after h a
    obtain ⟨hrest, hend⟩ := ih hnext
    exact ⟨hstep.trans hrest, hend⟩

theorem status_of_mem_added {actions : List Action} (he : e ∈ added id actions) :
    e.status = .todo := by
  obtain ⟨a, -, hea⟩ := List.mem_flatMap.mp he
  cases a with
  | push c pass kind subscriptions =>
    obtain ⟨-, hnew⟩ := List.mem_ite_nil_right.mp hea
    rw [List.mem_singleton.mp hnew]
    rfl
  | _ => cases hea

theorem map_unseen_added (id : String) (actions : List Action) :
    (added id actions).map Event.unseen = added id actions :=
  map_unseen fun _ => status_of_mem_added

/-- What has left without having been handed out has been dropped. -/
theorem filter_left (q : EventQueues) (id : String) (actions : List Action) :
    (q.left id actions).filter (fun e => !e.isSeen) =
      (q.dropped id actions).filter fun e => !e.isSeen := by
  induction actions generalizing q with
  | nil => rfl
  | cons a as ih =>
    have hretired : (q.retiring id a).filter (fun e => !e.isSeen) = [] := by
      refine List.filter_eq_nil_iff.mpr fun e he => ?_
      cases a with
      | acknowledge c n =>
        obtain ⟨-, he⟩ := List.mem_ite_nil_right.mp he
        rcases q.acknowledge_spec c n with ⟨d, es, -, -, -, ha⟩ | ⟨-, ha⟩
        · rw [ha] at he
          rw [List.mem_singleton.mp he]
          simp [Event.isSeen]
        · rw [ha] at he
          cases he
      | _ => cases he
    show ((q.leaving id a) ++ (q.after a).left id as).filter _ =
      ((q.dropping id a) ++ (q.after a).dropped id as).filter _
    rw [leaving, List.filter_append, List.filter_append, List.filter_append, hretired, ih,
      List.nil_append]

/-! ## The head in the hands of the consumer -/

/-- The head has been handed out. -/
def HeadOut (es : List Event) : Prop := ∃ e ∈ es.head?, e.status = .processing

/-- Over a run an event has been handed out to a consumer, and nothing has left its queue since. -/
def HandedOut (id : String) (q : EventQueues) (actions : List Action) : Prop :=
  ∃ before after, actions = before ++ .deliver id :: after ∧
    ((q.run before).deliver id).1 ≠ none ∧
    ((q.run before).after (.deliver id)).left id after = []

theorem not_headOut_of_todo {es : List Event} (h : ∀ e ∈ es, e.status = .todo) : ¬ HeadOut es := by
  rintro ⟨e, he, hprocessing⟩
  rw [h e (List.mem_of_mem_head? he)] at hprocessing
  cases hprocessing

theorem headOut_iff_of_head {es : List Event} (he : e ∈ es.head?) :
    HeadOut es ↔ e.status = .processing := by
  refine ⟨?_, fun hprocessing => ⟨e, he, hprocessing⟩⟩
  rintro ⟨d, hd, hprocessing⟩
  rwa [Option.mem_unique he hd]

theorem headOut_append {es : List Event} (he : e.status = .todo) :
    HeadOut (es ++ [e]) ↔ HeadOut es := by
  cases es <;> simp [HeadOut, he]

theorem headOut_handedOut (es : List Event) :
    HeadOut (handedOut es) ↔ nextEvent es ≠ none ∨ HeadOut es := by
  cases es with
  | nil => simp [HeadOut, handedOut, nextEvent]
  | cons e es => by_cases he : e.status = .processing <;> simp [HeadOut, handedOut, nextEvent, he]

/-- The consumer has the head in hand when it is handed out just now, or had it in hand before and
nothing leaves. -/
theorem headOut_after (h : HeadOnly (q.queue id)) (a : Action) :
    HeadOut ((q.after a).queue id) ↔
      q.delivering id a ≠ [] ∨ HeadOut (q.queue id) ∧ q.leaving id a = [] := by
  have htail : ¬ HeadOut (q.queue id).tail := not_headOut_of_todo h.tail
  by_cases hc : a.consumer = id
  · cases a with
    | push c pass kind subscriptions =>
      obtain rfl : c = id := hc
      have hqueue : (q.after (.push c pass kind subscriptions)).queue c =
          q.queue c ++ [.new pass kind subscriptions] := queue_push.trans (if_pos rfl)
      rw [hqueue, headOut_append rfl]
      simp [delivering, leaving, retiring, dropping]
    | deliver c =>
      obtain rfl : c = id := hc
      have hqueue : (q.after (.deliver c)).queue c = handedOut (q.queue c) :=
        queue_deliver.trans (if_pos rfl)
      rw [hqueue, headOut_handedOut]
      simp [delivering, leaving, retiring, dropping, deliver_fst]
    | acknowledge c n =>
      obtain rfl : c = id := hc
      show HeadOut ((q.acknowledge c n).2.queue c) ↔ _
      rcases q.acknowledge_spec c n with ⟨e, es, hq, -, -, ha⟩ | ⟨-, ha⟩
      · rw [hq] at htail
        rw [ha, queue_setQueue, if_pos rfl]
        simpa [delivering, leaving, retiring, dropping, ha] using htail
      · simp [delivering, leaving, retiring, dropping, ha]
    | popFirst c =>
      obtain rfl : c = id := hc
      have hqueue : (q.after (.popFirst c)).queue c = (q.queue c).tail :=
        (q.queue_popFirst c c).trans (if_pos rfl)
      have hleaves : q.leaving c (.popFirst c) = (q.queue c).head?.toList :=
        (if_pos rfl).trans (congrArg Option.toList (q.popFirst_fst c))
      rw [hqueue, hleaves, iff_false_left htail]
      rintro (hd | ⟨⟨e, he, -⟩, hl⟩)
      · exact hd rfl
      · rw [Option.mem_def.mp he] at hl
        cases hl
    | clear c =>
      obtain rfl : c = id := hc
      have hqueue : (q.after (.clear c)).queue c = [] := queue_clear.trans (if_pos rfl)
      have hleaves : q.leaving c (.clear c) = q.queue c := if_pos rfl
      rw [hqueue, hleaves, iff_false_left (not_headOut_of_todo (by simp))]
      rintro (hd | ⟨⟨e, he, -⟩, hl⟩)
      · exact hd rfl
      · rw [hl] at he
        cases he
  · obtain ⟨-, hd, hl⟩ := contributes_of_ne (q := q) hc
    simp [hd, hl, queue_after_of_ne hc]

theorem delivering_ne_nil {a : Action} :
    q.delivering id a ≠ [] ↔ a = .deliver id ∧ (q.deliver id).1 ≠ none := by
  cases a with
  | deliver c =>
    by_cases hc : c = id
    · subst hc
      cases hd : (q.deliver c).1 <;> simp [delivering, hd]
    · simp [delivering, hc]
  | _ => simp [delivering]

/-- An event is handed out by the last action, or by an earlier one and nothing leaves at last. -/
theorem handedOut_append_singleton {actions : List Action} {a : Action} :
    HandedOut id q (actions ++ [a]) ↔ (q.run actions).delivering id a ≠ [] ∨
      HandedOut id q actions ∧ (q.run actions).leaving id a = [] := by
  -- what leaves between the delivery and the end, with the last action split off
  have hleft (before after : List Action) (heq : actions = before ++ .deliver id :: after) :
      ((q.run before).after (.deliver id)).left id (after ++ [a]) =
        ((q.run before).after (.deliver id)).left id after ++ (q.run actions).leaving id a := by
    have hrun : ((q.run before).after (.deliver id)).run after = q.run actions := by
      rw [heq, run_append]
      rfl
    rw [left, collect_append, hrun, collect, collect, List.append_nil]
    rfl
  rw [delivering_ne_nil]
  constructor
  · rintro ⟨before, after, heq, hgiven, hnone⟩
    rcases List.eq_nil_or_concat' after with rfl | ⟨after, b, rfl⟩
    · obtain ⟨rfl, hb⟩ := List.append_inj' heq rfl
      exact .inl ⟨List.singleton_inj.mp hb, hgiven⟩
    · rw [← List.cons_append, ← List.append_assoc] at heq
      obtain ⟨hinit, hb⟩ := List.append_inj' heq rfl
      obtain rfl := List.singleton_inj.mp hb
      rw [hleft before after hinit, List.append_eq_nil_iff] at hnone
      exact .inr ⟨⟨before, after, hinit, hgiven, hnone.1⟩, hnone.2⟩
  · rintro (⟨rfl, hgiven⟩ | ⟨⟨before, after, heq, hgiven, hnone⟩, hlast⟩)
    · exact ⟨actions, [], rfl, hgiven, rfl⟩
    · refine ⟨before, after ++ [a], by rw [heq, List.append_assoc, List.cons_append], hgiven, ?_⟩
      rw [hleft before after heq, hnone, hlast, List.append_nil]

/-- The consumer has the head of its queue in hand exactly when it was handed out and nothing has
left the queue since. -/
theorem headOut_run (h : ∀ e ∈ q.queue id, e.status = .todo) (actions : List Action) :
    HeadOut ((q.run actions).queue id) ↔ HandedOut id q actions := by
  induction actions using List.reverseRecOn with
  | nil =>
    refine iff_of_false (not_headOut_of_todo h) ?_
    rintro ⟨before, after, heq, -⟩
    simp at heq
  | append_singleton actions a ih =>
    have hrun : HeadOnly ((q.run actions).queue id) := (accounted_run (.of_todo h) actions).2
    rw [handedOut_append_singleton, ← ih, run_append]
    exact headOut_after hrun a

/-! ## Delivery in order -/

/-- What becomes of the events of a consumer over some actions, at first without queues. -/
structure InOrder (id : String) (actions : List Action) : Prop where
  /-- Only the head may be in the hands of the consumer. -/
  headOnly : HeadOnly ((run {} actions).queue id)
  /-- What was added has left the queue, or is in it behind what has left. -/
  account : added id actions = (left id {} actions ++ (run {} actions).queue id).map Event.unseen
  /-- What was handed out is what shows it in that row, one by one. -/
  shown : delivered id {} actions = shownOf (left id {} actions ++ (run {} actions).queue id)
  /-- Events are handed out in the order they were added, and each at most once. -/
  sublist : ((delivered id {} actions).map Event.unseen).Sublist (added id actions)
  /-- What left without having been handed out was dropped. -/
  passedOver : (left id {} actions).filter (fun e => !e.isSeen) =
    (dropped id {} actions).filter fun e => !e.isSeen
  /-- When an event is handed out, all that was added before it has left. -/
  nextInLine : ∀ before after, actions = before ++ .deliver id :: after →
    ∀ e, ((run {} before).deliver id).1 = some e → ∃ rest,
      (run {} before).queue id = e.unseen :: rest ∧
        added id before = (left id {} before).map Event.unseen ++ e.unseen :: rest
  /-- An acknowledgement takes out the head that was handed out, if it is not of a later pass. -/
  acknowledged : ∀ n e, ((run {} actions).acknowledge id n).1 = some e ↔
    ∃ head ∈ ((run {} actions).queue id).head?,
      HandedOut id {} actions ∧ head.pass ≤ n ∧ e = { head with status := .done }
  /-- Then the rest stays in the queue, and otherwise all of it does. -/
  remaining : ∀ n, ((run {} actions).acknowledge id n).2.queue id =
    if ((run {} actions).acknowledge id n).1.isSome then ((run {} actions).queue id).tail
    else (run {} actions).queue id
  /-- What is done for others leaves the queue alone. -/
  apart : ∀ a : Action, a.consumer ≠ id →
    ((run {} actions).after a).queue id = (run {} actions).queue id

theorem unseen_shownOf_sublist (es : List Event) :
    ((shownOf es).map Event.unseen).Sublist (es.map Event.unseen) := by
  have hsame : (shownOf es).map Event.unseen = (es.filter Event.isSeen).map Event.unseen :=
    List.map_map ..
  rw [hsame]
  exact List.filter_sublist.map _

/-- At first there are no events. -/
theorem todo_of_empty : ∀ e ∈ queue {} id, e.status = .todo := by
  intro e he
  cases he

theorem headOnly_run (id : String) (actions : List Action) :
    HeadOnly ((run {} actions).queue id) :=
  (accounted_run (.of_todo todo_of_empty) actions).2

theorem added_eq (id : String) (actions : List Action) :
    added id actions = (left id {} actions ++ (run {} actions).queue id).map Event.unseen := by
  have hempty : HeadOnly (queue {} id) := .of_todo todo_of_empty
  have hkept := (accounted_run hempty actions).1.kept
  rwa [show queue {} id = [] from rfl, List.nil_append, map_unseen_added] at hkept

theorem delivered_eq (id : String) (actions : List Action) :
    delivered id {} actions = shownOf (left id {} actions ++ (run {} actions).queue id) :=
  (accounted_run (.of_todo todo_of_empty) actions).1.shown

/-- What is handed out is next to what has left. -/
theorem next_of_deliver {actions : List Action} (he : ((run {} actions).deliver id).1 = some e) :
    ∃ rest, (run {} actions).queue id = e.unseen :: rest ∧
      added id actions = (left id {} actions).map Event.unseen ++ e.unseen :: rest := by
  have hfront := headOnly_run id actions
  obtain ⟨d, rest, hq, htodo, rfl⟩ := of_deliver hfront he
  rw [hq] at hfront
  have hrest : rest.map Event.unseen = rest := map_unseen hfront.tail
  refine ⟨rest, by rw [hq, Event.unseen_shown, Event.unseen_eq_self htodo], ?_⟩
  rw [added_eq, hq, List.map_append, List.map_cons, hrest, Event.unseen_shown]

/-- Whatever is done to the queues, the events of every consumer are delivered in order, one at a
time, and never twice. -/
theorem delivered_inOrder (id : String) (actions : List Action) : InOrder id actions := by
  constructor
  case headOnly => exact headOnly_run id actions
  case account => exact added_eq id actions
  case shown => exact delivered_eq id actions
  case sublist =>
    rw [delivered_eq, added_eq]
    exact unseen_shownOf_sublist _
  case passedOver => exact filter_left {} id actions
  case nextInLine => exact fun before _ _ e he => next_of_deliver he
  case acknowledged =>
    intro n e
    rw [acknowledge_eq_some_iff]
    refine exists_congr fun head => and_congr_right fun hhead => and_congr_left' ?_
    rw [← headOut_run todo_of_empty actions, headOut_iff_of_head hhead]
  case remaining => exact (run {} actions).queue_acknowledge id
  case apart => exact fun a ha => queue_after_of_ne ha

end EventQueues

end ClusterMaster
