import Mathlib.Data.List.Nodup
import Mathlib.Logic.Function.Basic

/-!
# Responses between the worker and the RA thread

`client_server_call` hands a request to the worker through `g_http_pending`; the
worker hands it back through `g_http_done`, and `drain_http_done` runs its callback
on the RA thread. A callback may submit further requests while the drain that
runs it is under way, so the RA thread is a drain under a stack of calls.

A step is one atomic piece of either thread: a whole `lock_guard` scope, or the code
between two of them. A run is any list of steps; a step whose thread is elsewhere
changes nothing. Pointers are tickets that are never reused, and a freed job leaves
the heap. The history records, latest first, what the threads did; no step reads it.

WinHTTP is outside: cracking a URL is a parameter, and executing a request
leaves any body and status.
-/

namespace NoMercyRecomp.HttpQueue

/-- What `WinHttpCrackUrl` finds in a URL. -/
structure Target where
  host : String
  path : String
  https : Bool
  port : Nat

/-- `rc_api_request_t`; absent texts are null pointers. -/
structure Request where
  url : Option String
  postData : Option String
  contentType : Option String

variable {Callback Data : Type}

/-- `HttpJob`, with its defaults. -/
structure HttpJob (Callback Data : Type) where
  host : String := ""
  path : String := ""
  https : Bool := true
  port : Nat := 443
  postData : String := ""
  contentType : String := ""
  callback : Option Callback := none
  callbackData : Option Data := none
  body : String := ""
  status : Int := 0

inductive Thread where
  | ra
  | worker
deriving DecidableEq

/-- What a step does that other code can observe. -/
inductive Event (Callback Data : Type) where
  | lock
  | unlock
  | submit (ticket : Nat) (callback : Option Callback) (data : Data)
  | take (ticket : Nat)
  | execute (ticket : Nat) (body : String) (status : Int)
  | finish (ticket : Nat)
  | deliver (ticket : Nat)
  | call (ticket : Nat) (callback : Callback) (data : Option Data) (body : String) (status : Int)
  | reject (ticket : Nat) (callback : Option Callback) (data : Data)
  | returned (ticket : Nat)
  | delete (ticket : Nat)

abbrev History (Callback Data : Type) := List (Thread × Event Callback Data)

/-- Where a worker thread stands in its loop. -/
inductive Worker where
  | idle
  | executing (ticket : Nat)
  | executed (ticket : Nat)
deriving DecidableEq

/-- Where `drain_http_done` stands; inside the callback while `delivering`. -/
inductive Drain where
  | top
  | deliver (ticket : Nat)
  | delivering (ticket : Nat)
  | release (ticket : Nat)
deriving DecidableEq

/-- Where `client_server_call` stands; inside the callback while `rejected`. -/
inductive Point where
  | crack
  | rejected
  | start
  | spawn
  | push
deriving DecidableEq

/-- One activation of `client_server_call` and its locals. -/
structure Call (Callback Data : Type) where
  ticket : Nat
  request : Request
  callback : Option Callback
  data : Data
  point : Point

/-- Both threads, the queues they share and the heap. -/
structure State (Callback Data : Type) where
  heap : Nat → Option (HttpJob Callback Data) := fun _ => none
  next : Nat := 0
  pending : List Nat := []
  done : List Nat := []
  started : Bool := false
  workers : List Worker := []
  drain : Option Drain := none
  calls : List (Call Callback Data) := []
  history : History Callback Data := []

/-- One scheduling choice: RA-thread code submits a request, the RA loop drains,
the RA thread advances, or a worker does. -/
inductive Action (Callback Data : Type) where
  | call (request : Request) (callback : Option Callback) (data : Data)
  | drain
  | advance
  | work (index : Nat) (body : String) (status : Int)

/-! ## Steps -/

/-- The RA thread runs code of its own: its loop or a callback. -/
def userCode (s : State Callback Data) : Bool :=
  match s.calls, s.drain with
  | c :: _, _ => c.point = .rejected
  | [], none => true
  | [], some (.delivering _) => true
  | [], some _ => false

/-- Entering `client_server_call`: `new HttpJob()`. -/
def enter (s : State Callback Data) (request : Request) (callback : Option Callback) (data : Data) :
    State Callback Data :=
  { s with
    heap := Function.update s.heap s.next (some {})
    next := s.next + 1
    calls := ⟨s.next, request, callback, data, .crack⟩ :: s.calls }

/-- The job of a cracked request. -/
def filled (c : Call Callback Data) (target : Target) : HttpJob Callback Data :=
  { host := target.host, path := target.path, https := target.https, port := target.port
    postData := c.request.postData.getD "", contentType := c.request.contentType.getD ""
    callback := c.callback, callbackData := some c.data }

/-- The URL does not crack: the callback runs at once with status 0. -/
def reject (s : State Callback Data) (c : Call Callback Data) (rest : List (Call Callback Data)) :
    State Callback Data :=
  { s with
    calls := { c with point := .rejected } :: rest
    history := (.ra, .reject c.ticket c.callback c.data) :: s.history }

/-- The URL cracks: the job takes its fields. -/
def fill (s : State Callback Data) (c : Call Callback Data) (rest : List (Call Callback Data))
    (target : Target) : State Callback Data :=
  { s with
    heap := Function.update s.heap c.ticket (some (filled c target))
    calls := { c with point := .start } :: rest }

/-- The rejecting callback returns: `delete job; return`. -/
def discard (s : State Callback Data) (c : Call Callback Data) (rest : List (Call Callback Data)) :
    State Callback Data :=
  { s with
    heap := Function.update s.heap c.ticket none
    calls := rest
    history := (.ra, .delete c.ticket) :: (.ra, .returned c.ticket) :: s.history }

/-- `g_http_worker_started.compare_exchange_strong(expected, true)`. -/
def exchange (s : State Callback Data) (c : Call Callback Data) (rest : List (Call Callback Data)) :
    State Callback Data :=
  if s.started then { s with calls := { c with point := .push } :: rest }
  else { s with started := true, calls := { c with point := .spawn } :: rest }

/-- `std::thread(http_worker).detach()`. -/
def spawn (s : State Callback Data) (c : Call Callback Data) (rest : List (Call Callback Data)) :
    State Callback Data :=
  { s with workers := s.workers ++ [.idle], calls := { c with point := .push } :: rest }

/-- `g_http_pending.push_back(job)` under the lock. -/
def push (s : State Callback Data) (c : Call Callback Data) (rest : List (Call Callback Data)) :
    State Callback Data :=
  { s with
    pending := s.pending ++ [c.ticket]
    calls := rest
    history :=
      (.ra, .unlock) :: (.ra, .submit c.ticket c.callback c.data) :: (.ra, .lock) :: s.history }

/-- The next step of `client_server_call`. -/
def advanceCall (crack : String → Option Target) (s : State Callback Data) (c : Call Callback Data)
    (rest : List (Call Callback Data)) : State Callback Data :=
  match c.point with
  | .crack =>
    match crack (c.request.url.getD "") with
    | none => reject s c rest
    | some target => fill s c rest target
  | .rejected => discard s c rest
  | .start => exchange s c rest
  | .spawn => spawn s c rest
  | .push => push s c rest

/-- Taking the front of `g_http_done` under the lock; an empty queue ends the drain. -/
def pop (s : State Callback Data) : State Callback Data :=
  match s.done with
  | [] => { s with drain := none, history := (.ra, .unlock) :: (.ra, .lock) :: s.history }
  | ticket :: rest =>
    { s with
      done := rest
      drain := some (.deliver ticket)
      history := (.ra, .unlock) :: (.ra, .deliver ticket) :: (.ra, .lock) :: s.history }

/-- `if (job->callback) job->callback(&resp, job->callback_data)`. A dangling
pointer would leave the thread stuck here. -/
def callBack (s : State Callback Data) (ticket : Nat) : State Callback Data :=
  match s.heap ticket with
  | none => s
  | some job =>
    match job.callback with
    | none => { s with drain := some (.release ticket) }
    | some callback =>
      { s with
        drain := some (.delivering ticket)
        history := (.ra, .call ticket callback job.callbackData job.body job.status) :: s.history }

/-- The callback returns. -/
def comeBack (s : State Callback Data) (ticket : Nat) : State Callback Data :=
  { s with drain := some (.release ticket), history := (.ra, .returned ticket) :: s.history }

/-- `delete job`, and back to the top of the loop. -/
def release (s : State Callback Data) (ticket : Nat) : State Callback Data :=
  { s with
    heap := Function.update s.heap ticket none
    drain := some .top
    history := (.ra, .delete ticket) :: s.history }

/-- The next step of `drain_http_done`. -/
def advanceDrain (s : State Callback Data) : Drain → State Callback Data
  | .top => pop s
  | .deliver ticket => callBack s ticket
  | .delivering ticket => comeBack s ticket
  | .release ticket => release s ticket

/-- Taking the front of `g_http_pending` under the lock; the worker sleeps when
there is none. -/
def take (s : State Callback Data) (index : Nat) : State Callback Data :=
  match s.pending with
  | [] => { s with history := (.worker, .unlock) :: (.worker, .lock) :: s.history }
  | ticket :: rest =>
    { s with
      pending := rest
      workers := s.workers.set index (.executing ticket)
      history := (.worker, .unlock) :: (.worker, .take ticket) :: (.worker, .lock) :: s.history }

/-- `http_execute` fills the job's body and status. -/
def execute (s : State Callback Data) (index ticket : Nat) (body : String) (status : Int) :
    State Callback Data :=
  { s with
    heap := Function.update s.heap ticket
      ((s.heap ticket).map (fun job => { job with body := body, status := status }))
    workers := s.workers.set index (.executed ticket)
    history := (.worker, .execute ticket body status) :: s.history }

/-- `g_http_done.push_back(job)` under the lock. -/
def finish (s : State Callback Data) (index ticket : Nat) : State Callback Data :=
  { s with
    done := s.done ++ [ticket]
    workers := s.workers.set index .idle
    history := (.worker, .unlock) :: (.worker, .finish ticket) :: (.worker, .lock) :: s.history }

/-- The next step of a worker's loop. -/
def advanceWorker (s : State Callback Data) (index : Nat) (body : String) (status : Int) :
    Worker → State Callback Data
  | .idle => take s index
  | .executing ticket => execute s index ticket body status
  | .executed ticket => finish s index ticket

/-- One step of the chosen thread. -/
def step (crack : String → Option Target) (s : State Callback Data) :
    Action Callback Data → State Callback Data
  | .call request callback data => if userCode s then enter s request callback data else s
  | .drain => if s.calls.isEmpty ∧ s.drain.isNone then { s with drain := some .top } else s
  | .advance =>
    match s.calls, s.drain with
    | c :: rest, _ => advanceCall crack s c rest
    | [], some drain => advanceDrain s drain
    | [], none => s
  | .work index body status =>
    match s.workers[index]? with
    | some worker => advanceWorker s index body status worker
    | none => s

/-- The state after any interleaving, from an idle start. -/
def run (crack : String → Option Target) (actions : List (Action Callback Data)) :
    State Callback Data :=
  actions.foldl (step crack) {}

/-! ## What the history shows -/

/-- The submission an event records. -/
def Event.request? : Event Callback Data → Option (Nat × Option Callback × Data)
  | .submit ticket callback data => some (ticket, callback, data)
  | _ => none

/-- The delivery an event records. -/
def Event.delivery? : Event Callback Data → Option Nat
  | .deliver ticket => some ticket
  | _ => none

/-- The callback run that an event records, with its data. -/
def Event.call? : Event Callback Data → Option (Nat × Callback × Option Data)
  | .call ticket callback data _ _ => some (ticket, callback, data)
  | _ => none

/-- The submission sequence, with each request's callback and data. -/
def requests (history : History Callback Data) : List (Nat × Option Callback × Data) :=
  (history.filterMap (fun event => event.2.request?)).reverse

/-- The submission sequence. -/
def submitted (history : History Callback Data) : List Nat := (requests history).map Prod.fst

/-- The jobs taken for delivery, in order. -/
def delivered (history : History Callback Data) : List Nat :=
  (history.filterMap (fun event => event.2.delivery?)).reverse

/-- The callbacks run for delivered jobs, in order. -/
def called (history : History Callback Data) : List (Nat × Callback × Option Data) :=
  (history.filterMap (fun event => event.2.call?)).reverse

/-- The callback run that a request asks for. -/
def callable : Nat × Option Callback × Data → Option (Nat × Callback × Option Data)
  | (ticket, callback, data) => callback.map (fun callback => (ticket, callback, some data))

/-- Whether `g_http_mx` is held after the history. -/
def held : History Callback Data → Bool
  | (_, .lock) :: _ => true
  | (_, .unlock) :: _ => false
  | _ :: earlier => held earlier
  | [] => false

/-- The job a worker executes. -/
def Worker.job? : Worker → Option Nat
  | .idle => none
  | .executing ticket => some ticket
  | .executed ticket => some ticket

/-- An idle worker has no job. -/
@[simp] theorem idle_job : [Worker.idle].filterMap Worker.job? = [] := rfl

/-- The jobs being executed. -/
def executing (s : State Callback Data) : List Nat := s.workers.filterMap Worker.job?

/-- The job the drain has in hand. -/
def Drain.job? : Drain → Option Nat
  | .top => none
  | .deliver ticket => some ticket
  | .delivering ticket => some ticket
  | .release ticket => some ticket

/-- The drain has taken a job whose callback is still to come. -/
def awaiting (s : State Callback Data) : Nat :=
  match s.drain with
  | some (.deliver _) => 1
  | _ => 0

/-- What must precede an event: the mutex is free when it is taken and when a
callback starts or ends, a callback has its job's own response, and a job is
freed after its delivery or its rejection. -/
def Justified : Thread × Event Callback Data → History Callback Data → Prop
  | (_, .lock), earlier => held earlier = false
  | (thread, .call ticket _ _ body status), earlier =>
    thread = .ra ∧ held earlier = false ∧ ticket ∈ delivered earlier ∧
      (.worker, .execute ticket body status) ∈ earlier
  | (thread, .reject _ _ _), earlier => thread = .ra ∧ held earlier = false
  | (thread, .returned _), earlier => thread = .ra ∧ held earlier = false
  | (_, .delete ticket), earlier =>
    (∃ callback data, (ticket, callback, data) ∈ requests earlier ∧ ticket ∈ delivered earlier ∧
      (callback = none ∨ (.ra, .returned ticket) ∈ earlier)) ∨
    ∃ callback data, (.ra, .reject ticket callback data) ∈ earlier
  | _, _ => True

/-- Every event of the history is justified by those before it. -/
def Sound : History Callback Data → Prop
  | [] => True
  | event :: earlier => Justified event earlier ∧ Sound earlier

/-! ## The invariant -/

/-- What the drain knows of the job in hand. -/
def InHand (s : State Callback Data) : Prop :=
  match s.drain with
  | some (.deliver ticket) => ∃ before, delivered s.history = before ++ [ticket]
  | some (.delivering ticket) => ticket ∈ delivered s.history
  | some (.release ticket) => ∃ callback data, (ticket, callback, data) ∈ requests s.history ∧
      ticket ∈ delivered s.history ∧ (callback = none ∨ (.ra, .returned ticket) ∈ s.history)
  | _ => True

/-- The jobs that are still to be freed after a submission. -/
def live (s : State Callback Data) : List Nat :=
  (s.drain.bind Drain.job?).toList ++ s.done ++ executing s ++ s.pending

/-- The jobs whose response is complete. -/
def answered (s : State Callback Data) : List Nat :=
  (s.drain.bind Drain.job?).toList ++ s.done ++
    s.workers.filterMap (fun worker => if let .executed ticket := worker then some ticket else none)

/-- The state of both threads, in every reachable state. -/
structure Invariant (s : State Callback Data) : Prop where
  sequence : submitted s.history = delivered s.history ++ s.done ++ executing s ++ s.pending
  single : s.workers.length + s.calls.countP (fun c => c.point = .spawn) = s.started.toNat
  distinct : (submitted s.history ++ s.calls.map Call.ticket).Nodup
  issued : ∀ ticket ∈ submitted s.history ++ s.calls.map Call.ticket, ticket < s.next
  free : held s.history = false
  sound : Sound s.history
  inHand : InHand s
  calledSoFar : called s.history =
    ((requests s.history).take ((delivered s.history).length - awaiting s)).filterMap callable
  owned : ∀ request ∈ requests s.history, request.1 ∈ live s →
    ∃ job, s.heap request.1 = some job ∧ job.callback = request.2.1 ∧
    job.callbackData = some request.2.2
  prepared : ∀ c ∈ s.calls, c.point ≠ .crack → c.point ≠ .rejected →
    ∃ job, s.heap c.ticket = some job ∧ job.callback = c.callback ∧ job.callbackData = some c.data
  filledIn : ∀ ticket ∈ answered s, ∀ job, s.heap ticket = some job →
    (.worker, .execute ticket job.body job.status) ∈ s.history
  rejecting : ∀ c ∈ s.calls, c.point = .rejected →
    (.ra, .reject c.ticket c.callback c.data) ∈ s.history
  rejected : ∀ ticket callback data, (.ra, .reject ticket callback data) ∈ s.history →
    ticket < s.next ∧ ticket ∉ submitted s.history ∧ ∀ c ∈ s.calls, c.ticket = ticket →
    c.point = .rejected

section Projections

variable (event : Thread × Event Callback Data) (history : History Callback Data)

/-- An event adds its request to those before it. -/
@[simp] theorem requests_cons :
    requests (event :: history) = requests history ++ event.2.request?.toList := by
  cases found : event.2.request? <;> simp [requests, found]

/-- An event adds the ticket that it submits to those before it. -/
@[simp] theorem submitted_cons :
    submitted (event :: history) = submitted history ++ (event.2.request?.map Prod.fst).toList := by
  cases found : event.2.request? <;> simp [submitted, found]

/-- An event adds its delivery to those before it. -/
@[simp] theorem delivered_cons :
    delivered (event :: history) = delivered history ++ event.2.delivery?.toList := by
  cases found : event.2.delivery? <;> simp [delivered, found]

/-- An event adds its call to those before it. -/
@[simp] theorem called_cons :
    called (event :: history) = called history ++ event.2.call?.toList := by
  cases found : event.2.call? <;> simp [called, found]

end Projections

attribute [simp] Event.request? Event.delivery? Event.call? held Justified Sound

section Preservation

variable {s : State Callback Data}

/-- A job still to be freed was submitted: wherever its ticket is, in a queue, a worker's hand or
the drain's, the invariant says so. -/
theorem live_submitted (invariant : Invariant s) (ticket : Nat) (member : ticket ∈ live s) :
    ticket ∈ submitted s.history := by
  have inHand := invariant.inHand
  rw [invariant.sequence]
  simp only [live, List.mem_append] at member ⊢
  rcases member with ((held | done) | executing) | pending
  · refine Or.inl (Or.inl (Or.inl ?_))
    cases drain : s.drain with
    | none => simp [drain] at held
    | some frame =>
      cases frame <;> simp only [InHand, drain] at inHand <;>
        simp only [drain, Drain.job?, Option.bind_some, Option.toList, List.mem_singleton,
          List.not_mem_nil] at held <;> subst held
      · obtain ⟨before, last⟩ := inHand
        simp [last]
      · exact inHand
      · obtain ⟨_, _, _, taken, _⟩ := inHand
        exact taken
  · exact Or.inl (Or.inl (Or.inr done))
  · exact Or.inl (Or.inr executing)
  · exact Or.inr pending

/-- A complete response belongs to a job that is still to be freed. -/
theorem answered_live (s : State Callback Data) (ticket : Nat) (member : ticket ∈ answered s) :
    ticket ∈ live s := by
  simp only [answered, live, List.mem_append] at member ⊢
  rcases member with (held | done) | executed
  · exact Or.inl (Or.inl (Or.inl held))
  · exact Or.inl (Or.inl (Or.inr done))
  · refine Or.inl (Or.inr ?_)
    obtain ⟨worker, among, found⟩ := List.mem_filterMap.mp executed
    refine List.mem_filterMap.mpr ⟨worker, among, ?_⟩
    cases worker <;> simp_all [Worker.job?]

/-- A step that changes only the heap at one ticket leaves the jobs of all others. -/
theorem owned_update (invariant : Invariant s) (ticket : Nat) (job : Option (HttpJob Callback Data))
    (fresh : ticket ∉ submitted s.history) :
    ∀ request ∈ requests s.history, request.1 ∈ live s →
      ∃ kept, Function.update s.heap ticket job request.1 = some kept ∧
        kept.callback = request.2.1 ∧ kept.callbackData = some request.2.2 := by
  intro request member alive
  have different : request.1 ≠ ticket := fun same =>
    fresh (same ▸ List.mem_map.mpr ⟨request, member, rfl⟩)
  rw [Function.update_of_ne different]
  exact invariant.owned request member alive

/-- Responses of submitted jobs stay as they were executed. -/
theorem filledIn_update (invariant : Invariant s) (ticket : Nat)
    (job : Option (HttpJob Callback Data)) (fresh : ticket ∉ submitted s.history) :
    ∀ other ∈ answered s, ∀ kept, Function.update s.heap ticket job other = some kept →
      (.worker, .execute other kept.body kept.status) ∈ s.history := by
  intro other member kept
  have different : other ≠ ticket := fun same =>
    fresh (same ▸ live_submitted invariant other (answered_live s other member))
  rw [Function.update_of_ne different]
  exact invariant.filledIn other member kept

/-- Entering a request keeps the invariant. The new call has a ticket that no call, job or event
has had, so everything that is said of older tickets stands. -/
theorem enter_invariant (invariant : Invariant s) (request : Request) (callback : Option Callback)
    (data : Data) : Invariant (enter s request callback data) := by
  have unused : s.next ∉ submitted s.history ++ s.calls.map Call.ticket := fun member =>
    Nat.lt_irrefl _ (invariant.issued s.next member)
  have fresh : s.next ∉ submitted s.history := fun member => unused (List.mem_append_left _ member)
  exact { invariant with
    single := by simpa [enter] using invariant.single
    distinct := by
      have entered : (s.next :: (submitted s.history ++ s.calls.map Call.ticket)).Nodup :=
        List.nodup_cons.mpr ⟨unused, invariant.distinct⟩
      exact List.perm_middle.nodup_iff.mpr entered
    issued := by
      intro ticket member
      simp only [enter, List.map_cons, List.mem_append, List.mem_cons] at member ⊢
      rcases member with earlier | rfl | nested
      · exact Nat.lt_succ_of_lt (invariant.issued ticket (List.mem_append_left _ earlier))
      · exact Nat.lt_succ_self _
      · exact Nat.lt_succ_of_lt (invariant.issued ticket (List.mem_append_right _ nested))
    owned := owned_update invariant s.next _ fresh
    prepared := by
      intro c member notCrack notRejected
      rcases List.mem_cons.mp member with rfl | nested
      · exact absurd rfl notCrack
      · have different : c.ticket ≠ s.next := fun same =>
          unused (List.mem_append_right _ (same ▸ List.mem_map.mpr ⟨c, nested, rfl⟩))
        simp only [enter, Function.update_of_ne different]
        exact invariant.prepared c nested notCrack notRejected
    filledIn := filledIn_update invariant s.next _ fresh
    rejecting := by
      intro c member isRejected
      rcases List.mem_cons.mp member with rfl | nested
      · exact absurd isRejected (by simp)
      · exact invariant.rejecting c nested isRejected
    rejected := by
      intro ticket callback' data' recorded
      obtain ⟨bound, unsubmitted, onStack⟩ := invariant.rejected ticket callback' data' recorded
      refine ⟨Nat.lt_succ_of_lt bound, unsubmitted, ?_⟩
      intro c member same
      rcases List.mem_cons.mp member with rfl | nested
      · exact absurd bound (by simp [← same])
      · exact onStack c nested same }

/-- Later events that deliver nothing leave the drain's knowledge in place: what it knows is the
request of its job, and that the job is delivered or not yet. -/
theorem inHand_later (t : State Callback Data) (inHand : InHand s) (sameDrain : t.drain = s.drain)
    (sameDeliveries : delivered t.history = delivered s.history)
    (kept : requests s.history ⊆ requests t.history) (later : s.history ⊆ t.history) :
    InHand t := by
  cases drain : s.drain with
  | none => simp [InHand, sameDrain, drain]
  | some frame =>
    cases frame with
    | top => simp [InHand, sameDrain, drain]
    | deliver ticket => simpa [InHand, sameDrain, sameDeliveries, drain] using inHand
    | delivering ticket => simpa [InHand, sameDrain, sameDeliveries, drain] using inHand
    | release ticket =>
      simp only [InHand, drain] at inHand
      obtain ⟨callback, data, request, taken, returned⟩ := inHand
      simp only [InHand, sameDrain, drain, sameDeliveries]
      exact ⟨callback, data, kept request, taken,
        returned.imp_right (fun recorded => later recorded)⟩

/-- No more jobs were delivered than submitted. -/
theorem delivered_length (invariant : Invariant s) :
    (delivered s.history).length ≤ (requests s.history).length := by
  have lengths := congrArg List.length invariant.sequence
  simp only [submitted, List.length_map, List.length_append] at lengths
  omega

section TopCall

variable {c : Call Callback Data} {rest : List (Call Callback Data)} (stack : s.calls = c :: rest)
include stack

/-- The active call's ticket is neither submitted nor anyone else's. -/
theorem top_fresh (invariant : Invariant s) :
    c.ticket ∉ submitted s.history ∧ (∀ other ∈ rest, other.ticket ≠ c.ticket) ∧
    c.ticket < s.next := by
  have distinct := invariant.distinct
  rw [stack, List.map_cons] at distinct
  have apart := List.nodup_cons.mp (List.perm_middle.nodup_iff.mp distinct)
  refine ⟨fun member => apart.1 (List.mem_append_left _ member), ?_, ?_⟩
  · intro other nested same
    exact apart.1 (List.mem_append_right _ (List.mem_map.mpr ⟨other, nested, same⟩))
  · exact invariant.issued c.ticket (List.mem_append_right _ (by simp [stack]))

/-- Jobs of the calls below the active one do not change with its ticket. -/
theorem prepared_below (invariant : Invariant s) (job : Option (HttpJob Callback Data)) :
    ∀ other ∈ rest, other.point ≠ .crack → other.point ≠ .rejected →
      ∃ kept, Function.update s.heap c.ticket job other.ticket = some kept ∧
        kept.callback = other.callback ∧ kept.callbackData = some other.data := by
  intro other nested notCrack notRejected
  have different := (top_fresh stack invariant).2.1 other nested
  rw [Function.update_of_ne different]
  exact invariant.prepared other (by simp [stack, nested]) notCrack notRejected

/-- Rejecting a request that cannot be split keeps the invariant: the event answers the call's own
ticket, with the callback and the data that it was submitted with. -/
theorem reject_invariant (invariant : Invariant s) (atCrack : c.point = .crack) :
    Invariant (reject s c rest) := by
  obtain ⟨fresh, others, bound⟩ := top_fresh stack invariant
  exact {
    sequence := by simpa [reject, executing] using invariant.sequence
    single := by simpa [reject, stack, atCrack] using invariant.single
    distinct := by simpa [reject, stack] using invariant.distinct
    issued := by simpa [reject, stack] using invariant.issued
    free := invariant.free
    sound := ⟨⟨rfl, invariant.free⟩, invariant.sound⟩
    inHand :=
      inHand_later _ invariant.inHand rfl (by simp [reject]) (by simp [reject]) (by simp [reject])
    calledSoFar := by simpa [reject, awaiting] using invariant.calledSoFar
    owned := by
      have sameRequests : requests (reject s c rest).history = requests s.history := by
        simp [reject]
      exact fun request member => invariant.owned request (sameRequests ▸ member)
    prepared := by
      intro other member notCrack notRejected
      rcases List.mem_cons.mp member with rfl | nested
      · exact absurd rfl notRejected
      · exact invariant.prepared other (by simp [stack, nested]) notCrack notRejected
    filledIn := fun ticket member job found =>
      List.mem_cons_of_mem _ (invariant.filledIn ticket member job found)
    rejecting := by
      intro other member isRejected
      rcases List.mem_cons.mp member with rfl | nested
      · exact List.mem_cons_self
      · exact List.mem_cons_of_mem _
          (invariant.rejecting other (by simp [stack, nested]) isRejected)
    rejected := by
      intro ticket callback data recorded
      have submittedSame : submitted (reject s c rest).history = submitted s.history := by
        simp [reject]
      rw [submittedSame]
      rcases List.mem_cons.mp recorded with here | earlier
      · obtain ⟨rfl, rfl, rfl⟩ : ticket = c.ticket ∧ callback = c.callback ∧ data = c.data := by
          simpa using here
        refine ⟨bound, fresh, ?_⟩
        intro other member same
        rcases List.mem_cons.mp member with rfl | nested
        · rfl
        · exact absurd same (others other nested)
      · obtain ⟨below, unsubmitted, onStack⟩ := invariant.rejected ticket callback data earlier
        refine ⟨below, unsubmitted, ?_⟩
        intro other member same
        rcases List.mem_cons.mp member with rfl | nested
        · rfl
        · exact onStack other (by simp [stack, nested]) same }

/-- A call that goes on after cracking was not rejected. -/
theorem rejected_turn (invariant : Invariant s) (point : Point) (going : c.point ≠ .rejected) :
    ∀ ticket callback data, (Thread.ra, Event.reject ticket callback data) ∈ s.history →
      ticket < s.next ∧ ticket ∉ submitted s.history ∧
        ∀ other ∈ { c with point := point } :: rest, other.ticket = ticket →
        other.point = .rejected := by
  intro ticket callback data recorded
  obtain ⟨below, unsubmitted, onStack⟩ := invariant.rejected ticket callback data recorded
  refine ⟨below, unsubmitted, ?_⟩
  intro other member same
  rcases List.mem_cons.mp member with rfl | nested
  · exact absurd (onStack c (by simp [stack]) same) going
  · exact onStack other (by simp [stack, nested]) same

/-- A call that goes to another point leaves the calls that are rejected as they were. -/
theorem rejecting_turn (invariant : Invariant s) (point : Point) (going : point ≠ .rejected) :
    ∀ other ∈ { c with point := point } :: rest, other.point = .rejected →
      (Thread.ra, Event.reject other.ticket other.callback other.data) ∈ s.history := by
  intro other member isRejected
  rcases List.mem_cons.mp member with rfl | nested
  · exact absurd isRejected going
  · exact invariant.rejecting other (by simp [stack, nested]) isRejected

/-- Filling in a job keeps the invariant. The job takes the ticket, the callback and the data of
the call that fills it in, and that call is the only one at its point with the ticket. -/
theorem fill_invariant (invariant : Invariant s) (atCrack : c.point = .crack) (target : Target) :
    Invariant (fill s c rest target) := by
  obtain ⟨fresh, others, bound⟩ := top_fresh stack invariant
  exact { invariant with
    single := by simpa [fill, stack, atCrack] using invariant.single
    distinct := by simpa [fill, stack] using invariant.distinct
    issued := by simpa [fill, stack] using invariant.issued
    owned := owned_update invariant c.ticket _ fresh
    prepared := by
      intro other member notCrack notRejected
      rcases List.mem_cons.mp member with rfl | nested
      · exact ⟨filled c target, by simp [fill], rfl, rfl⟩
      · exact prepared_below stack invariant _ other nested notCrack notRejected
    filledIn := filledIn_update invariant c.ticket _ fresh
    rejecting := rejecting_turn stack invariant .start (by decide)
    rejected := rejected_turn stack invariant .start (by simp [atCrack]) }

/-- A call that is rejected returns. The event that answers it is in the history already, with the
call's own callback and data, and its ticket is in no other place. -/
theorem discard_invariant (invariant : Invariant s) (atRejected : c.point = .rejected) :
    Invariant (discard s c rest) := by
  obtain ⟨fresh, others, bound⟩ := top_fresh stack invariant
  have wasRejected := invariant.rejecting c (by simp [stack]) atRejected
  exact {
    sequence := by simpa [discard, executing] using invariant.sequence
    single := by simpa [discard, stack, atRejected] using invariant.single
    distinct := by
      have distinct := invariant.distinct
      rw [stack, List.map_cons] at distinct
      simpa [discard] using (List.nodup_cons.mp (List.perm_middle.nodup_iff.mp distinct)).2
    issued := by
      intro ticket member
      have shrunk : ticket ∈ submitted s.history ++ s.calls.map Call.ticket := by
        have stays : ticket ∈ submitted s.history ++ rest.map Call.ticket := by
          simpa [discard] using member
        rw [stack, List.map_cons]
        exact List.mem_append.mpr ((List.mem_append.mp stays).imp_right (List.mem_cons_of_mem _))
      exact invariant.issued ticket shrunk
    free := invariant.free
    sound :=
      ⟨Or.inr ⟨c.callback, c.data, List.mem_cons_of_mem _ wasRejected⟩, ⟨rfl, invariant.free⟩,
      invariant.sound⟩
    inHand := inHand_later _ invariant.inHand rfl (by simp [discard]) (by simp [discard]) (by
      intro event member
      exact List.mem_cons_of_mem _ (List.mem_cons_of_mem _ member))
    calledSoFar := by simpa [discard, awaiting] using invariant.calledSoFar
    owned := by
      have sameRequests : requests (discard s c rest).history = requests s.history := by
        simp [discard]
      exact fun request member =>
        owned_update invariant c.ticket none fresh request (sameRequests ▸ member)
    prepared := prepared_below stack invariant none
    filledIn := fun ticket member job found => List.mem_cons_of_mem _ (List.mem_cons_of_mem _
      (filledIn_update invariant c.ticket none fresh ticket member job found))
    rejecting := fun other nested isRejected => List.mem_cons_of_mem _ (List.mem_cons_of_mem _
      (invariant.rejecting other (by simp [stack, show other ∈ rest from nested]) isRejected))
    rejected := by
      intro ticket callback data recorded
      have earlier : (Thread.ra, Event.reject ticket callback data) ∈ s.history := by
        simpa [discard] using recorded
      obtain ⟨below, unsubmitted, onStack⟩ := invariant.rejected ticket callback data earlier
      refine ⟨below, by simpa [discard] using unsubmitted, ?_⟩
      intro other nested same
      exact onStack other (by simp [stack, show other ∈ rest from nested]) same }

/-- Setting the flag of the worker keeps the invariant: only the first call to do so goes on to
start the thread. -/
theorem exchange_invariant (invariant : Invariant s) (atStart : c.point = .start) :
    Invariant (exchange s c rest) := by
  have ready := invariant.prepared c (by simp [stack]) (by simp [atStart]) (by simp [atStart])
  have going : c.point ≠ .rejected := by simp [atStart]
  have prepared (point : Point) : ∀ other ∈ { c with point := point } :: rest,
      other.point ≠ .crack → other.point ≠ .rejected → ∃ job, s.heap other.ticket = some job ∧
        job.callback = other.callback ∧ job.callbackData = some other.data := by
    intro other member notCrack notRejected
    rcases List.mem_cons.mp member with rfl | nested
    · exact ready
    · exact invariant.prepared other (by simp [stack, nested]) notCrack notRejected
  have sameTickets (point : Point) :
      s.calls.map Call.ticket = ({ c with point := point } :: rest).map Call.ticket := by
        simp [stack]
  rw [exchange]
  split
  next started =>
    exact { invariant with
      single := by simpa [stack, atStart] using invariant.single
      distinct := sameTickets .push ▸ invariant.distinct
      issued := sameTickets .push ▸ invariant.issued
      prepared := prepared .push
      rejecting := rejecting_turn stack invariant .push (by decide)
      rejected := rejected_turn stack invariant .push going }
  next unstarted =>
    have alone : s.workers.length + rest.countP (fun other => other.point = .spawn) = 0 := by
      simpa [stack, atStart, unstarted] using invariant.single
    exact { invariant with
      single := by
        simp only [List.countP_cons, decide_true, if_true, Bool.toNat_true]
        omega
      distinct := sameTickets .spawn ▸ invariant.distinct
      issued := sameTickets .spawn ▸ invariant.issued
      prepared := prepared .spawn
      rejecting := rejecting_turn stack invariant .spawn (by decide)
      rejected := rejected_turn stack invariant .spawn going }

/-- Starting the worker keeps the invariant: the flag lets it happen once, so there is one
worker. -/
theorem spawn_invariant (invariant : Invariant s) (atSpawn : c.point = .spawn) :
    Invariant (spawn s c rest) := by
  have ready := invariant.prepared c (by simp [stack]) (by simp [atSpawn]) (by simp [atSpawn])
  have sameExecuting : executing (spawn s c rest) = executing s := by
    simp [executing, spawn, Worker.job?]
  exact { invariant with
    sequence := by
      rw [sameExecuting]
      exact invariant.sequence
    single := by
      have single := invariant.single
      simp only [stack, List.countP_cons, atSpawn, decide_true, if_true] at single
      simp only [spawn, List.length_append, List.length_singleton, List.countP_cons, reduceCtorEq,
        decide_false, Bool.false_eq_true, if_false]
      omega
    distinct := by simpa [spawn, stack] using invariant.distinct
    issued := by simpa [spawn, stack] using invariant.issued
    owned := by
      have sameLive : live (spawn s c rest) = live s := by
        rw [live, sameExecuting]
        rfl
      exact fun request member alive => invariant.owned request member (sameLive ▸ alive)
    prepared := by
      intro other member notCrack notRejected
      rcases List.mem_cons.mp member with rfl | nested
      · exact ready
      · exact invariant.prepared other (by simp [stack, nested]) notCrack notRejected
    filledIn := by
      have sameAnswered : answered (spawn s c rest) = answered s := by simp [answered, spawn]
      exact fun ticket member => invariant.filledIn ticket (sameAnswered ▸ member)
    rejecting := rejecting_turn stack invariant .push (by decide)
    rejected := rejected_turn stack invariant .push (by simp [atSpawn]) }

/-- Pushing a job keeps the invariant: the ticket passes from the call to the queue, in which it
was not before. -/
theorem push_invariant (invariant : Invariant s) (atPush : c.point = .push) :
    Invariant (push s c rest) := by
  obtain ⟨fresh, others, bound⟩ := top_fresh stack invariant
  have ready := invariant.prepared c (by simp [stack]) (by simp [atPush]) (by simp [atPush])
  have later : s.history ⊆ (push s c rest).history := fun event member =>
    List.mem_cons_of_mem _ (List.mem_cons_of_mem _ (List.mem_cons_of_mem _ member))
  exact {
    sequence := by simp [push, executing, invariant.sequence]
    single := by simpa [push, stack, atPush] using invariant.single
    distinct := by
      have distinct := invariant.distinct
      rw [stack, List.map_cons] at distinct
      simpa [push] using distinct
    issued := by
      intro ticket member
      refine invariant.issued ticket ?_
      rw [stack, List.map_cons]
      simpa [push] using member
    free := rfl
    sound := by simpa [push] using ⟨invariant.free, invariant.sound⟩
    inHand := inHand_later _ invariant.inHand rfl (by simp [push]) (by simp [push]) later
    calledSoFar := by
      have short : (delivered s.history).length - awaiting s ≤ (requests s.history).length :=
        Nat.le_trans (Nat.sub_le _ _) (delivered_length invariant)
      have sameAwaiting : awaiting (push s c rest) = awaiting s := rfl
      have sameDeliveries : delivered (push s c rest).history = delivered s.history := by
        simp [push]
      rw [sameAwaiting, sameDeliveries]
      simp [push, List.take_append_of_le_length short, invariant.calledSoFar]
    owned := by
      intro request member alive
      have known : request ∈ requests s.history ∨ request = (c.ticket, c.callback, c.data) := by
        simpa [push] using member
      rcases known with old | rfl
      · have different : request.1 ≠ c.ticket := fun same =>
          fresh (same ▸ List.mem_map.mpr ⟨request, old, rfl⟩)
        refine invariant.owned request old ?_
        simpa [live, push, executing, different] using alive
      · exact ready
    prepared :=
      fun other nested => invariant.prepared other (by simp [stack, show other ∈ rest from nested])
    filledIn := fun ticket member job found => later (invariant.filledIn ticket member job found)
    rejecting := fun other nested isRejected =>
      later (invariant.rejecting other (by simp [stack, show other ∈ rest from nested]) isRejected)
    rejected := by
      intro ticket callback data recorded
      have earlier : (Thread.ra, Event.reject ticket callback data) ∈ s.history := by
        simpa [push] using recorded
      obtain ⟨below, unsubmitted, onStack⟩ := invariant.rejected ticket callback data earlier
      have different : ticket ≠ c.ticket := by
        intro same
        have wasRejected := onStack c (by simp [stack]) same.symm
        simp [atPush] at wasRejected
      refine ⟨below, by simpa [push, different] using unsubmitted, ?_⟩
      intro other nested same
      exact onStack other (by simp [stack, show other ∈ rest from nested]) same }

end TopCall

/-- Recording events that concern neither queues nor calls keeps the tables of
rejected calls. -/
theorem rejected_later (t : State Callback Data) (invariant : Invariant s)
    (sameNext : t.next = s.next)
    (sameCalls : t.calls = s.calls) (sameRequests : requests t.history = requests s.history)
    (rejections : ∀ ticket callback data,
      (Thread.ra, Event.reject ticket callback data) ∈ t.history →
      (Thread.ra, Event.reject ticket callback data) ∈ s.history) :
    ∀ ticket callback data, (Thread.ra, Event.reject ticket callback data) ∈ t.history →
      ticket < t.next ∧ ticket ∉ submitted t.history ∧
        ∀ c ∈ t.calls, c.ticket = ticket → c.point = .rejected := by
  intro ticket callback data recorded
  rw [sameNext, sameCalls, submitted, sameRequests]
  exact invariant.rejected ticket callback data (rejections ticket callback data recorded)

/-- Popping a response keeps the invariant: it passes from the responses to the hand of the thread
that drains them. -/
theorem pop_invariant (invariant : Invariant s) (atTop : s.drain = some .top) :
    Invariant (pop s) := by
  have calledAll : called s.history =
      ((requests s.history).take (delivered s.history).length).filterMap callable := by
    simpa [awaiting, atTop] using invariant.calledSoFar
  rw [pop]
  cases queue : s.done with
  | nil =>
    exact { invariant with
      sequence := by simpa [executing, queue] using invariant.sequence
      distinct := by simpa using invariant.distinct
      issued := by simpa using invariant.issued
      free := rfl
      sound := by simpa using ⟨invariant.free, invariant.sound⟩
      inHand := by simp [InHand]
      calledSoFar := by simpa [awaiting] using calledAll
      owned := by simpa [live, executing, atTop, queue, Drain.job?] using invariant.owned
      filledIn := by
        intro ticket member job found
        have answeredBefore : ticket ∈ answered s := by
          simpa [answered, atTop, queue, Drain.job?] using member
        exact List.mem_cons_of_mem _ (List.mem_cons_of_mem _
          (invariant.filledIn ticket answeredBefore job found))
      rejecting := fun c member isRejected => List.mem_cons_of_mem _ (List.mem_cons_of_mem _
        (invariant.rejecting c member isRejected))
      rejected := rejected_later _ invariant rfl rfl (by simp) (by simp) }
  | cons ticket rest =>
    exact { invariant with
      sequence := by simpa [executing, queue] using invariant.sequence
      distinct := by simpa using invariant.distinct
      issued := by simpa using invariant.issued
      free := rfl
      sound := by simpa using ⟨invariant.free, invariant.sound⟩
      inHand := ⟨delivered s.history, by simp⟩
      calledSoFar := by simpa [awaiting] using calledAll
      owned := by simpa [live, executing, atTop, queue, Drain.job?] using invariant.owned
      filledIn := by
        intro other member job found
        have answeredBefore : other ∈ answered s := by
          simpa [answered, atTop, queue, Drain.job?] using member
        exact List.mem_cons_of_mem _ (List.mem_cons_of_mem _ (List.mem_cons_of_mem _
          (invariant.filledIn other answeredBefore job found)))
      rejecting := fun c member isRejected => List.mem_cons_of_mem _ (List.mem_cons_of_mem _
        (List.mem_cons_of_mem _ (invariant.rejecting c member isRejected)))
      rejected := rejected_later _ invariant rfl rfl (by simp) (by simp) }

/-- The job about to be called back is the last one delivered, and its request
stands at that place of the submission sequence. -/
theorem deliver_request (invariant : Invariant s) (ticket : Nat)
    (inHand : s.drain = some (.deliver ticket)) :
    ∃ before callback data after, requests s.history = before ++ (ticket, callback, data) :: after ∧
      (delivered s.history).length = before.length + 1 := by
  have last := invariant.inHand
  simp only [InHand, inHand] at last
  obtain ⟨earlier, taken⟩ := last
  have order : (requests s.history).map Prod.fst =
      earlier ++ ticket :: (s.done ++ executing s ++ s.pending) := by
    simpa [taken, submitted] using invariant.sequence
  obtain ⟨before, rest, split, sameEarlier, sameRest⟩ := List.map_eq_append_iff.mp order
  obtain ⟨⟨found, callback, data⟩, after, shape, rfl, _⟩ := List.map_eq_cons_iff.mp sameRest
  refine ⟨before, callback, data, after, by rw [split, shape], ?_⟩
  simp [taken, ← sameEarlier]

/-- Calling back with a response keeps the invariant: its job is still filled in, so the callback
and the data are those of the request, and the event is the ticket's first delivery. -/
theorem callBack_invariant (invariant : Invariant s) (ticket : Nat)
    (inHand : s.drain = some (.deliver ticket)) : Invariant (callBack s ticket) := by
  obtain ⟨before, callback, data, after, order, length⟩ := deliver_request invariant ticket inHand
  have request : (ticket, callback, data) ∈ requests s.history := by simp [order]
  have alive : ticket ∈ live s := by simp [live, inHand, Drain.job?]
  have taken : ticket ∈ delivered s.history := by
    have last := invariant.inHand
    simp only [InHand, inHand] at last
    obtain ⟨earlier, taken⟩ := last
    simp [taken]
  obtain ⟨job, found, ownCallback, ownData⟩ := invariant.owned _ request alive
  have calledBefore : called s.history = before.filterMap callable := by
    rw [invariant.calledSoFar, length, order]
    simp [awaiting, inHand]
  have whole : before.take (before.length + 1) = before := List.take_of_length_le (Nat.le_succ _)
  simp only [callBack, found]
  cases pointer : job.callback with
  | none =>
    have null : callback = none := ownCallback.symm.trans pointer
    exact { invariant with
      inHand := ⟨callback, data, request, taken, Or.inl null⟩
      calledSoFar := by
        have skipped : callable (ticket, callback, data) = none := by simp [callable, null]
        rw [calledBefore, length, order]
        simp [awaiting, List.take_append, whole, skipped]
      owned := fun request member alive => invariant.owned request member (by
        simpa [live, inHand, Drain.job?, executing] using alive)
      filledIn := fun other member => invariant.filledIn other (by
        simpa [answered, inHand, Drain.job?] using member) }
  | some run =>
    have own : callback = some run := ownCallback.symm.trans pointer
    have response := invariant.filledIn ticket (by simp [answered, inHand, Drain.job?]) job found
    exact { invariant with
      sequence := by simpa [executing] using invariant.sequence
      distinct := by simpa using invariant.distinct
      issued := by simpa using invariant.issued
      sound := ⟨⟨rfl, invariant.free, taken, response⟩, invariant.sound⟩
      inHand := by simpa [InHand] using taken
      calledSoFar := by
        have calls : callable (ticket, callback, data) = some (ticket, run, job.callbackData) := by
          simp [callable, own, ownData]
        simp [awaiting, length, order, List.take_append, whole, calledBefore, calls]
      owned := by
        intro request member alive
        refine invariant.owned request (by simpa using member) ?_
        simpa [live, inHand, Drain.job?, executing] using alive
      filledIn := fun other member job found => List.mem_cons_of_mem _ (invariant.filledIn other (by
        simpa [answered, inHand, Drain.job?] using member) job found)
      rejecting :=
        fun c member isRejected => List.mem_cons_of_mem _ (invariant.rejecting c member isRejected)
      rejected := rejected_later _ invariant rfl rfl (by simp) (by simp) }

/-- A delivered job's request is known. -/
theorem delivered_request (invariant : Invariant s) (ticket : Nat)
    (taken : ticket ∈ delivered s.history) :
    ∃ callback data, (ticket, callback, data) ∈ requests s.history := by
  have known : ticket ∈ submitted s.history := by
    rw [invariant.sequence]
    simp [taken]
  obtain ⟨⟨_, callback, data⟩, member, rfl⟩ := List.mem_map.mp known
  exact ⟨callback, data, member⟩

/-- Coming back from a callback keeps the invariant; the callback may have entered requests of its
own. -/
theorem comeBack_invariant (invariant : Invariant s) (ticket : Nat)
    (inHand : s.drain = some (.delivering ticket)) : Invariant (comeBack s ticket) := by
  have taken : ticket ∈ delivered s.history := by simpa [InHand, inHand] using invariant.inHand
  obtain ⟨callback, data, request⟩ := delivered_request invariant ticket taken
  exact { invariant with
    sequence := by simpa [comeBack, executing] using invariant.sequence
    distinct := by simpa [comeBack] using invariant.distinct
    issued := by simpa [comeBack] using invariant.issued
    sound := ⟨⟨rfl, invariant.free⟩, invariant.sound⟩
    inHand := by
      refine ⟨callback, data,
        by simpa [comeBack] using request, by simpa [comeBack] using taken, ?_⟩
      exact Or.inr List.mem_cons_self
    calledSoFar := by simpa [comeBack, awaiting, inHand] using invariant.calledSoFar
    owned := by
      intro request member alive
      refine invariant.owned request (by simpa [comeBack] using member) ?_
      simpa [comeBack, live, inHand, Drain.job?, executing] using alive
    filledIn := fun other member job found => List.mem_cons_of_mem _ (invariant.filledIn other (by
      simpa [comeBack, answered, inHand, Drain.job?] using member) job found)
    rejecting :=
      fun c member isRejected => List.mem_cons_of_mem _ (invariant.rejecting c member isRejected)
    rejected := rejected_later _ invariant rfl rfl (by simp [comeBack]) (by simp [comeBack]) }

/-- Releasing a delivered job keeps the invariant: nothing else holds its ticket, and the event
that deletes it follows the one that delivered it. -/
theorem release_invariant (invariant : Invariant s) (ticket : Nat)
    (inHand : s.drain = some (.release ticket)) : Invariant (release s ticket) := by
  have knowledge := invariant.inHand
  simp only [InHand, inHand] at knowledge
  obtain ⟨callback, data, request, taken, returned⟩ := knowledge
  have distinct := invariant.distinct
  rw [invariant.sequence] at distinct
  have apart : ∀ other ∈ s.done ++ executing s ++ s.pending, other ≠ ticket := by
    intro other member same
    have order : (delivered s.history ++ (s.done ++ executing s ++ s.pending)).Nodup := by
      simpa using (List.nodup_append.mp distinct).1
    exact (List.nodup_append.mp order).2.2 ticket taken other member same.symm
  have elsewhere : ∀ c ∈ s.calls, c.ticket ≠ ticket := by
    intro c member same
    have submittedTicket : ticket ∈ submitted s.history := List.mem_map.mpr ⟨_, request, rfl⟩
    exact (List.nodup_append.mp invariant.distinct).2.2 ticket submittedTicket c.ticket
      (List.mem_map.mpr ⟨c, member, rfl⟩) same.symm
  exact { invariant with
    sequence := by simpa [release, executing] using invariant.sequence
    distinct := by simpa [release] using invariant.distinct
    issued := by simpa [release] using invariant.issued
    sound := ⟨Or.inl ⟨callback, data, request, taken, returned⟩, invariant.sound⟩
    inHand := by simp [InHand, release]
    calledSoFar := by simpa [release, awaiting, inHand] using invariant.calledSoFar
    owned := by
      intro other member alive
      have remaining : other.1 ∈ s.done ++ executing s ++ s.pending := by
        simpa [release, live, Drain.job?, executing] using alive
      have aliveBefore : other.1 ∈ live s := by
        rw [live, List.append_assoc, List.append_assoc]
        exact List.mem_append_right _ (by simpa using remaining)
      have kept := invariant.owned other (by simpa [release] using member) aliveBefore
      simpa [release, Function.update_of_ne (apart other.1 remaining)] using kept
    prepared := by
      intro c member notCrack notRejected
      have kept := invariant.prepared c member notCrack notRejected
      simpa [release, Function.update_of_ne (elsewhere c member)] using kept
    filledIn := by
      intro other member job found
      by_cases same : other = ticket
      · simp [release, same] at found
      · have answeredBefore : other ∈ answered s := by
          have remaining : other ∈ s.done ++ s.workers.filterMap (fun worker =>
              if let .executed ticket := worker then some ticket else none) := by
            simpa [release, answered, Drain.job?] using member
          rw [answered, List.append_assoc]
          exact List.mem_append_right _ remaining
        have kept : s.heap other = some job := by
          simpa [release, Function.update_of_ne same] using found
        exact List.mem_cons_of_mem _ (invariant.filledIn other answeredBefore job kept)
    rejecting :=
      fun c member isRejected => List.mem_cons_of_mem _ (invariant.rejecting c member isRejected)
    rejected := rejected_later _ invariant rfl rfl (by simp [release]) (by simp [release]) }

section TheWorker

variable {index : Nat} {worker : Worker} (found : s.workers[index]? = some worker)
include found

/-- The compare-exchange lets one worker start. -/
theorem only_worker (invariant : Invariant s) : s.workers = [worker] ∧ index = 0 := by
  have single := invariant.single
  have few : s.started.toNat ≤ 1 := Bool.toNat_le s.started
  obtain ⟨bound, here⟩ := List.getElem?_eq_some_iff.mp found
  have one : s.workers.length = 1 := by omega
  obtain ⟨other, shape⟩ := List.length_eq_one_iff.mp one
  obtain rfl : index = 0 := by omega
  have same : other = worker := by simpa [shape] using found
  exact ⟨same ▸ shape, rfl⟩

/-- Taking a job keeps the invariant: the ticket passes from the queue to the worker, in the order
in which it was pushed. -/
theorem take_invariant (invariant : Invariant s) (isIdle : worker = .idle) :
    Invariant (take s index) := by
  obtain ⟨shape, rfl⟩ := only_worker found invariant
  subst isIdle
  rw [take]
  cases queue : s.pending with
  | nil =>
    exact { invariant with
      sequence := by simpa [executing, queue] using invariant.sequence
      distinct := by simpa using invariant.distinct
      issued := by simpa using invariant.issued
      free := rfl
      sound := by simpa using ⟨invariant.free, invariant.sound⟩
      inHand := inHand_later _ invariant.inHand rfl (by simp) (by simp) (fun event member =>
        List.mem_cons_of_mem _ (List.mem_cons_of_mem _ member))
      calledSoFar := by simpa [awaiting] using invariant.calledSoFar
      owned := by simpa [live, executing, queue] using invariant.owned
      filledIn := fun ticket member job found => List.mem_cons_of_mem _ (List.mem_cons_of_mem _
        (invariant.filledIn ticket member job found))
      rejecting := fun c member isRejected => List.mem_cons_of_mem _ (List.mem_cons_of_mem _
        (invariant.rejecting c member isRejected))
      rejected := rejected_later _ invariant rfl rfl (by simp) (by simp) }
  | cons ticket rest =>
    exact { invariant with
      sequence := by simpa [executing, shape, queue, Worker.job?] using invariant.sequence
      single := by simpa [shape] using invariant.single
      distinct := by simpa using invariant.distinct
      issued := by simpa using invariant.issued
      free := rfl
      sound := by simpa using ⟨invariant.free, invariant.sound⟩
      inHand := inHand_later _ invariant.inHand rfl (by simp) (by simp) (fun event member =>
        List.mem_cons_of_mem _ (List.mem_cons_of_mem _ (List.mem_cons_of_mem _ member)))
      calledSoFar := by simpa [awaiting] using invariant.calledSoFar
      owned := by simpa [live, executing, shape, queue, Worker.job?] using invariant.owned
      filledIn := by
        intro other member job found
        have answeredBefore : other ∈ answered s := by simpa [answered, shape] using member
        exact List.mem_cons_of_mem _ (List.mem_cons_of_mem _ (List.mem_cons_of_mem _
          (invariant.filledIn other answeredBefore job found)))
      rejecting := fun c member isRejected => List.mem_cons_of_mem _ (List.mem_cons_of_mem _
        (List.mem_cons_of_mem _ (invariant.rejecting c member isRejected)))
      rejected := rejected_later _ invariant rfl rfl (by simp) (by simp) }

/-- Executing a job keeps the invariant: what comes back is filled into the worker's own job,
which keeps its callback and its data. -/
theorem execute_invariant (invariant : Invariant s) (ticket : Nat)
    (isExecuting : worker = .executing ticket)
    (body : String) (status : Int) : Invariant (execute s index ticket body status) := by
  obtain ⟨shape, rfl⟩ := only_worker found invariant
  subst isExecuting
  have executes : executing s = [ticket] := by simp [executing, shape, Worker.job?]
  have known : ticket ∈ submitted s.history := by
    rw [invariant.sequence, executes]
    simp
  exact { invariant with
    sequence := by simpa [execute, executing, shape, Worker.job?] using invariant.sequence
    single := by simpa [execute, shape] using invariant.single
    distinct := by simpa [execute] using invariant.distinct
    issued := by simpa [execute] using invariant.issued
    sound := ⟨trivial, invariant.sound⟩
    inHand := inHand_later _ invariant.inHand rfl (by simp [execute]) (by simp [execute])
      (fun event member => List.mem_cons_of_mem _ member)
    calledSoFar := by simpa [execute, awaiting] using invariant.calledSoFar
    owned := by
      intro request member alive
      obtain ⟨job, kept, ownCallback, ownData⟩ :=
        invariant.owned request (by simpa [execute] using member)
        (by simpa [execute, live, executing, shape, Worker.job?] using alive)
      by_cases same : request.1 = ticket
      · refine ⟨{ job with body := body, status := status }, ?_, ownCallback, ownData⟩
        rw [← same]
        simp [execute, kept]
      · exact ⟨job, by simpa [execute, Function.update_of_ne same] using kept, ownCallback, ownData⟩
    prepared := by
      intro c member notCrack notRejected
      have different : c.ticket ≠ ticket := fun same =>
        (List.nodup_append.mp invariant.distinct).2.2 ticket known c.ticket
          (List.mem_map.mpr ⟨c, member, rfl⟩) same.symm
      have kept := invariant.prepared c member notCrack notRejected
      simpa [execute, Function.update_of_ne different] using kept
    filledIn := by
      intro other member job found
      by_cases same : other = ticket
      · subst same
        obtain ⟨before, _, rfl⟩ : ∃ before, s.heap other = some before ∧
            { before with body := body, status := status } = job := by
          simpa [execute] using found
        exact List.mem_cons_self
      · have answeredBefore : other ∈ answered s := by
          simpa [execute, answered, shape, same] using member
        have kept : s.heap other = some job := by
          simpa [execute, Function.update_of_ne same] using found
        exact List.mem_cons_of_mem _ (invariant.filledIn other answeredBefore job kept)
    rejecting :=
      fun c member isRejected => List.mem_cons_of_mem _ (invariant.rejecting c member isRejected)
    rejected := rejected_later _ invariant rfl rfl (by simp [execute]) (by simp [execute]) }

/-- Finishing a job keeps the invariant: the ticket passes from the worker to the responses, and
as there is one worker it passes in order. -/
theorem finish_invariant (invariant : Invariant s) (ticket : Nat)
    (isExecuted : worker = .executed ticket) :
    Invariant (finish s index ticket) := by
  obtain ⟨shape, rfl⟩ := only_worker found invariant
  subst isExecuted
  have later : s.history ⊆ (finish s 0 ticket).history := fun event member =>
    List.mem_cons_of_mem _ (List.mem_cons_of_mem _ (List.mem_cons_of_mem _ member))
  exact { invariant with
    sequence := by simpa [finish, executing, shape, Worker.job?] using invariant.sequence
    single := by simpa [finish, shape] using invariant.single
    distinct := by simpa [finish] using invariant.distinct
    issued := by simpa [finish] using invariant.issued
    free := rfl
    sound := by simpa [finish] using ⟨invariant.free, invariant.sound⟩
    inHand := inHand_later _ invariant.inHand rfl (by simp [finish]) (by simp [finish]) later
    calledSoFar := by simpa [finish, awaiting] using invariant.calledSoFar
    owned := by
      intro request member alive
      refine invariant.owned request (by simpa [finish] using member) ?_
      simpa [finish, live, executing, shape, Worker.job?] using alive
    filledIn := by
      intro other member job found
      have answeredBefore : other ∈ answered s := by
        simpa [finish, answered, shape] using member
      exact later (invariant.filledIn other answeredBefore job found)
    rejecting := fun c member isRejected => later (invariant.rejecting c member isRejected)
    rejected := rejected_later _ invariant rfl rfl (by simp [finish]) (by simp [finish]) }

end TheWorker

/-- Every step of either thread keeps the invariant: the calls on the stack of the client's
thread, the thread that drains, and the worker, each at its point. -/
theorem step_invariant (crack : String → Option Target) (invariant : Invariant s)
    (action : Action Callback Data) : Invariant (step crack s action) := by
  cases action with
  | call request callback data =>
    rw [step]
    split
    · exact enter_invariant invariant request callback data
    · exact invariant
  | drain =>
    rw [step]
    split
    next idle =>
      have noDrain : s.drain = none := Option.isNone_iff_eq_none.mp idle.2
      exact { invariant with
        inHand := by simp [InHand]
        calledSoFar := by simpa [awaiting, noDrain] using invariant.calledSoFar
        owned := by simpa [live, executing, noDrain, Drain.job?] using invariant.owned
        filledIn := by simpa [answered, noDrain, Drain.job?] using invariant.filledIn }
    next => exact invariant
  | advance =>
    cases stack : s.calls with
    | cons c rest =>
      simp only [step, stack, advanceCall]
      cases point : c.point with
      | crack =>
        cases crack (c.request.url.getD "") with
        | none => exact reject_invariant stack invariant point
        | some target => exact fill_invariant stack invariant point target
      | rejected => exact discard_invariant stack invariant point
      | start => exact exchange_invariant stack invariant point
      | spawn => exact spawn_invariant stack invariant point
      | push => exact push_invariant stack invariant point
    | nil =>
      cases frame : s.drain with
      | none => simpa [step, stack, frame] using invariant
      | some drain =>
        simp only [step, stack, frame]
        cases drain with
        | top => exact pop_invariant invariant frame
        | deliver ticket => exact callBack_invariant invariant ticket frame
        | delivering ticket => exact comeBack_invariant invariant ticket frame
        | release ticket => exact release_invariant invariant ticket frame
  | work index body status =>
    cases found : s.workers[index]? with
    | none => simpa [step, found] using invariant
    | some worker =>
      simp only [step, found]
      cases worker with
      | idle => exact take_invariant found invariant rfl
      | executing ticket => exact execute_invariant found invariant ticket rfl body status
      | executed ticket => exact finish_invariant found invariant ticket rfl

end Preservation

/-- Every reachable state satisfies the invariant: the empty one does, and each step of either
thread keeps it. -/
theorem run_invariant (crack : String → Option Target) (actions : List (Action Callback Data)) :
    Invariant (run crack actions) := by
  have start : Invariant ({} : State Callback Data) :=
    { sequence := rfl
      single := rfl
      distinct := by simp [submitted, requests]
      issued := by simp [submitted, requests]
      free := rfl
      sound := trivial
      inHand := trivial
      calledSoFar := rfl
      owned := by simp [requests]
      prepared := by simp
      filledIn := by simp [answered]
      rejecting := by simp
      rejected := by simp }
  exact List.foldlRecOn actions (step crack) start (fun s invariant action _ =>
    step_invariant crack invariant action)

/-! ## Exactly once and in order -/

/-- What holds of the responses in a state: submissions are the delivered, done,
executing and pending jobs in that order; the callbacks run are those of a prefix of
the submissions, each with its own data; a callback starts and ends on the RA
thread with the mutex free, with the response that was executed for it; and a job is
freed only once delivered and its callback, if any, has returned. -/
structure ExactlyOnce (s : State Callback Data) : Prop where
  sequence : submitted s.history = delivered s.history ++ s.done ++ executing s ++ s.pending
  oneExecuting : (executing s).length ≤ 1
  distinct : (submitted s.history).Nodup
  inOrder : called s.history <+: (requests s.history).filterMap callable
  callbacks : ∀ thread ticket callback data body status earlier,
    (thread, .call ticket callback data body status) :: earlier <:+ s.history →
      thread = .ra ∧ held earlier = false ∧ ticket ∈ delivered earlier ∧
        (.worker, .execute ticket body status) ∈ earlier
  rejections : ∀ thread ticket callback data earlier,
    (thread, .reject ticket callback data) :: earlier <:+ s.history → thread = .ra ∧
    held earlier = false
  returns : ∀ thread ticket earlier, (thread, .returned ticket) :: earlier <:+ s.history →
    thread = .ra ∧ held earlier = false
  deletions : ∀ thread ticket earlier, (thread, .delete ticket) :: earlier <:+ s.history →
    ∀ callback data, (ticket, callback, data) ∈ requests s.history →
      ticket ∈ delivered earlier ∧ (callback = none ∨ (.ra, .returned ticket) ∈ earlier)

/-- Each event of a sound history is justified by what precedes it. -/
theorem sound_suffix (history : History Callback Data) (sound : Sound history)
    (event : Thread × Event Callback Data) (earlier : History Callback Data)
    (split : event :: earlier <:+ history) : Justified event earlier := by
  induction history with
  | nil => simp at split
  | cons first history inductionHypothesis =>
    rcases List.suffix_cons_iff.mp split with same | later
    · obtain ⟨rfl, rfl⟩ := List.cons.inj same
      exact sound.1
    · exact inductionHypothesis sound.2 later

/-- Submissions recorded earlier are part of the submission sequence. -/
theorem requests_suffix (earlier history : History Callback Data) (split : earlier <:+ history) :
    requests earlier ⊆ requests history := by
  intro request member
  simp only [requests, List.mem_reverse, List.mem_filterMap] at member ⊢
  obtain ⟨event, recorded, shows⟩ := member
  exact ⟨event, split.subset recorded, shows⟩

/-- A callback that submits while its own response is being drained. -/
example :
    let crack : String → Option Target :=
  fun url => if url = "" then none else some ⟨url, "/", true, 443⟩
    let request : Request := ⟨some "api", none, none⟩
    let goOn : Action Nat Nat := .advance
    called (run crack [.call request (some 7) 70, goOn, goOn, goOn, goOn,
      .work 0 "" 0, .work 0 "ok" 200, .work 0 "" 0, .drain, goOn, goOn,
      .call request (some 8) 80, goOn, goOn, goOn, goOn, goOn,
      .work 0 "" 0, .work 0 "ok" 200, .work 0 "" 0, goOn, goOn]).history =
      [(0, 7, some 70), (1, 8, some 80)] := by decide

end NoMercyRecomp.HttpQueue
