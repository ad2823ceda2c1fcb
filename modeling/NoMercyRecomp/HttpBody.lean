import Mathlib

/-!
# The body of a response

`http_execute` grows the body before each read by what is available and trims it
afterwards to what was read. A read that fails leaves the loop between the two: the body
keeps the whole region it was grown by.

The outcomes of the WinHTTP calls are the input. A read never returns or writes more than
it was asked for, which a read carries as a field.
-/

namespace NoMercyRecomp.HttpBody

abbrev Bytes := List UInt8

/-- What `WinHttpReadData` does when asked for `avail` bytes: it fails, having written some
bytes perhaps, or it returns bytes. -/
inductive Read (avail : UInt32) where
  | fails (written : Bytes) (fits : written.length ≤ avail.toNat)
  | returns (bytes : Bytes) (fits : bytes.length ≤ avail.toNat)

/-- One iteration's outcomes: `WinHttpQueryDataAvailable` fails, or tells how much is
available, and the read then does something. -/
inductive Outcome where
  | queryFails
  | available (avail : UInt32) (read : Read avail)

/-- `std::string::resize`: cut, or padded with zeros. -/
def resize (size : Nat) (body : Bytes) : Bytes :=
  body.take size ++ List.replicate (size - body.length) 0

/-- Bytes written into a string at an offset. -/
def overwrite (offset : Nat) (bytes body : Bytes) : Bytes :=
  body.take offset ++ bytes ++ body.drop (offset + bytes.length)

/-- The receive loop; nothing when the outcomes run out before it ends. -/
def receive : List Outcome → Bytes → Option Bytes
  | [], _ => none
  | .queryFails :: _, body => some body
  | .available avail read :: rest, body =>
    if avail = 0 then some body
    else
      let grown := resize (body.length + avail.toNat) body
      match read with
      | .fails written _ => some (overwrite body.length written grown)
      | .returns bytes _ =>
        let trimmed := resize (body.length + bytes.length) (overwrite body.length bytes grown)
        if bytes.length = 0 then some trimmed else receive rest trimmed

/-- The calls before the loop: whether each succeeds, and the status code. -/
structure Session where
  opens : Bool
  connects : Bool
  requests : Bool
  sends : Bool
  answers : Bool
  status : UInt32

/-- The fields of `HttpJob` that the worker fills, with their defaults. -/
structure HttpJob where
  body : Bytes := []
  status : Int32 := 0
deriving DecidableEq

/-- `http_execute`; nothing while the loop has not ended. -/
def httpExecute (session : Session) (outcomes : List Outcome) (job : HttpJob) : Option HttpJob :=
  if session.opens = false then some { job with status := 0 }
  else if session.connects = false then some { job with status := 0 }
  else if session.requests = false then some { job with status := 0 }
  else if (session.sends && session.answers) = true then
    (receive outcomes job.body).map
      (fun body => { job with body := body, status := session.status.toInt32 })
  else some { job with status := 0 }

/-- `rc_api_server_response_t`. -/
structure Response where
  body : Bytes
  bodyLength : Nat
  httpStatusCode : Int32
deriving DecidableEq

/-- What `drain_http_done` passes to the callback. -/
def response (job : HttpJob) : Response where
  body := job.body
  bodyLength := job.body.length
  httpStatusCode := job.status

/-! ## What was received -/

/-- The bytes that the loop's successful reads return, in order. -/
def received : List Outcome → Bytes
  | [] => []
  | .queryFails :: _ => []
  | .available avail read :: rest =>
    if avail = 0 then []
    else match read with
      | .fails _ _ => []
      | .returns bytes _ => if bytes.length = 0 then [] else bytes ++ received rest

/-- What a failed read leaves at the end of the body: what it wrote, and zeros up to what
was available. -/
def residue : List Outcome → Bytes
  | [] => []
  | .queryFails :: _ => []
  | .available avail read :: rest =>
    if avail = 0 then []
    else match read with
      | .fails written _ => written ++ List.replicate (avail.toNat - written.length) 0
      | .returns bytes _ => if bytes.length = 0 then [] else residue rest

/-- The loop ends. -/
def Ends : List Outcome → Prop
  | [] => False
  | .queryFails :: _ => True
  | .available avail read :: rest =>
    avail = 0 ∨ match read with
      | .fails _ _ => True
      | .returns bytes _ => bytes.length = 0 ∨ Ends rest

/-- The loop reaches a read that fails. -/
def ReadFails : List Outcome → Prop
  | [] => False
  | .queryFails :: _ => False
  | .available avail read :: rest =>
    avail ≠ 0 ∧ match read with
      | .fails _ _ => True
      | .returns bytes _ => bytes.length ≠ 0 ∧ ReadFails rest

/-- The session gets as far as the loop. -/
def Session.answered (session : Session) : Bool :=
  session.opens && session.connects && session.requests && session.sends && session.answers

/-- What a session receives in all. -/
def Session.received (session : Session) (outcomes : List Outcome) : Bytes :=
  if session.answered = true then HttpBody.received outcomes else []

/-! ## The loop -/

/-- The body grown by a region. -/
theorem resize_grow (body : Bytes) (more : Nat) :
    resize (body.length + more) body = body ++ List.replicate more 0 := by
  unfold resize
  rw [List.take_of_length_le (Nat.le_add_right _ _), Nat.add_sub_cancel_left]

/-- Bytes written at the start of the region. -/
theorem overwrite_grown (body bytes : Bytes) (more : Nat) :
    overwrite body.length bytes (body ++ List.replicate more 0) =
      body ++ bytes ++ List.replicate (more - bytes.length) 0 := by
  unfold overwrite
  rw [List.take_left, List.drop_append, List.drop_of_length_le (Nat.le_add_right _ _),
    List.nil_append, Nat.add_sub_cancel_left, List.drop_replicate]

/-- The body trimmed to what was read. -/
theorem resize_trim (body bytes padding : Bytes) :
    resize (body.length + bytes.length) (body ++ bytes ++ padding) = body ++ bytes := by
  unfold resize
  rw [← List.length_append, List.take_left]
  have none : (body ++ bytes).length - (body ++ bytes ++ padding).length = 0 := by simp
  rw [none, List.replicate_zero, List.append_nil]

/-- A loop that ends leaves the body with what was received and what a failed read left
behind. -/
theorem receive_eq (outcomes : List Outcome) (body : Bytes) (ends : Ends outcomes) :
    receive outcomes body = some (body ++ received outcomes ++ residue outcomes) := by
  induction outcomes generalizing body with
  | nil => exact ends.elim
  | cons outcome rest inductionHypothesis =>
    cases outcome with
    | queryFails => simp [receive, received, residue]
    | available avail read =>
      by_cases none : avail = 0
      · simp [receive, received, residue, none]
      · cases read with
        | fails written fits =>
          simp only [receive, received, residue, none, if_false, resize_grow,
            overwrite_grown body written, List.append_nil, List.append_assoc]
        | returns bytes fits =>
          simp only [receive, received, residue, none, if_false, resize_grow,
            overwrite_grown body bytes, resize_trim]
          by_cases last : bytes.length = 0
          · rw [if_pos last, if_pos last, if_pos last, List.length_eq_zero_iff.mp last]
            simp
          · rw [if_neg last, if_neg last, if_neg last]
            have more : Ends rest := by
              obtain zero | empty | more := ends
              · exact absurd zero none
              · exact absurd empty last
              · exact more
            rw [inductionHypothesis (body ++ bytes) more, List.append_assoc body bytes]

/-- A loop that does not end gives no body. It ends with a failing query, with nothing available,
with a failing read or with an empty one. -/
theorem receive_none (outcomes : List Outcome) (body : Bytes) (endless : ¬Ends outcomes) :
    receive outcomes body = none := by
  induction outcomes generalizing body with
  | nil => rfl
  | cons outcome rest inductionHypothesis =>
    cases outcome with
    | queryFails => exact absurd trivial endless
    | available avail read =>
      have more : avail ≠ 0 := fun zero => endless (.inl zero)
      cases read with
      | fails written fits => exact absurd (.inr trivial) endless
      | returns bytes fits =>
        have some : bytes.length ≠ 0 := fun empty => endless (.inr (.inl empty))
        have later : ¬Ends rest := fun ends => endless (.inr (.inr ends))
        simp only [receive, more, some, if_false]
        exact inductionHypothesis _ later

/-- Something is left behind exactly when a read fails: the buffer has been resized for it by
then, and is not cut back. A failing query comes before the resize. -/
theorem residue_iff (outcomes : List Outcome) : residue outcomes = [] ↔ ¬ReadFails outcomes := by
  induction outcomes with
  | nil => simp [residue, ReadFails]
  | cons outcome rest inductionHypothesis =>
    cases outcome with
    | queryFails => simp [residue, ReadFails]
    | available avail read =>
      by_cases none : avail = 0
      · simp [residue, ReadFails, none]
      · cases read with
        | fails written fits =>
          have positive : avail.toNat ≠ 0 := fun zero => none (UInt32.toNat_inj.mp zero)
          have length : (written ++ List.replicate (avail.toNat - written.length)
              (0 : UInt8)).length = avail.toNat := by
            rw [List.length_append, List.length_replicate]
            omega
          simp only [residue, ReadFails, none, if_false, ne_eq, not_false_eq_true, and_true,
            not_true, iff_false]
          intro empty
          rw [empty] at length
          exact positive length.symm
        | returns bytes fits =>
          by_cases last : bytes.length = 0
          · simp [residue, ReadFails, last]
          · simp only [residue, ReadFails, none, last, if_false, ne_eq, not_false_eq_true, true_and]
            exact inductionHypothesis

/-- A read that fails ends the loop. -/
theorem ends_of_readFails (outcomes : List Outcome) (fails : ReadFails outcomes) :
    Ends outcomes := by
  induction outcomes with
  | nil => exact fails.elim
  | cons outcome rest inductionHypothesis =>
    cases outcome with
    | queryFails => exact fails.elim
    | available avail read =>
      cases read with
      | fails written fits => exact .inr trivial
      | returns bytes fits => exact .inr (.inr (inductionHypothesis fails.2.2))

/-! ## The response -/

/-- A session that is answered runs the loop. -/
theorem httpExecute_answered (session : Session) (outcomes : List Outcome) (job : HttpJob)
    (answered : session.answered = true) :
    httpExecute session outcomes job =
      (receive outcomes job.body).map
        (fun body => { job with body := body, status := session.status.toInt32 }) := by
  simp only [Session.answered, Bool.and_eq_true] at answered
  obtain ⟨⟨⟨⟨opens, connects⟩, requests⟩, sends⟩, answers⟩ := answered
  simp [httpExecute, opens, connects, requests, sends, answers]

/-- A session that is not answered leaves the body, with the status 0: some step before the status
has failed, and each of these ends the request. -/
theorem httpExecute_unanswered (session : Session) (outcomes : List Outcome) (job : HttpJob)
    (unanswered : session.answered = false) :
    httpExecute session outcomes job = some { job with status := 0 } := by
  unfold httpExecute
  split
  · rfl
  · split
    · rfl
    · split
      · rfl
      · split
        · rename_i opens connects requests loop
          rw [Bool.not_eq_false] at opens connects requests
          rw [Bool.and_eq_true] at loop
          simp [Session.answered, opens, connects, requests, loop] at unanswered
        · rfl

/-- The loop of a new job leaves what was received, exactly when no read fails: what it leaves is
that and the residue, which only a failing read makes. -/
theorem receive_iff (outcomes : List Outcome) :
    (∀ body, receive outcomes [] = some body → body = received outcomes) ↔ ¬ReadFails outcomes := by
  constructor
  · intro exact fails
    have result := receive_eq outcomes [] (ends_of_readFails outcomes fails)
    have same := exact _ result
    have empty : residue outcomes = [] := by
      have cancelled : received outcomes ++ residue outcomes = received outcomes ++ [] := by
        simpa using same
      exact List.append_cancel_left cancelled
    exact (residue_iff outcomes).mp empty fails
  · intro whole body loop
    have ends : Ends outcomes := by
      by_contra endless
      rw [receive_none outcomes [] endless] at loop
      cases loop
    have result := receive_eq outcomes [] ends
    rw [(residue_iff outcomes).mpr whole, List.append_nil, List.nil_append] at result
    exact Option.some.inj (loop.symm.trans result)

/-- Whenever a new job is done, the response carries what the session received, exactly when its
loop reaches no read that fails. Before a read the body is made longer for it, and a failed read
leaves that room; every other end of the loop cuts the body to what was received. -/
theorem body_iff (session : Session) (outcomes : List Outcome) :
    (∀ job, httpExecute session outcomes {} = some job →
        (response job).body = session.received outcomes ∧
          (response job).bodyLength = (session.received outcomes).length) ↔
      ¬(session.answered = true ∧ ReadFails outcomes) := by
  cases answered : session.answered with
  | false =>
    rw [httpExecute_unanswered session outcomes {} answered]
    simp [Session.received, answered, response]
  | true =>
    rw [httpExecute_answered session outcomes {} answered]
    have all : session.received outcomes = received outcomes := if_pos answered
    rw [all, and_iff_right rfl, ← receive_iff]
    constructor
    · intro exact body loop
      exact (exact _ (by rw [loop]; rfl)).1
    · intro exact job ran
      obtain ⟨body, loop, rfl⟩ := Option.map_eq_some_iff.mp ran
      exact ⟨exact body loop, congrArg List.length (exact body loop)⟩

/-- A session whose calls before the loop all succeed, with the status 200. -/
def fetched : Session := ⟨true, true, true, true, true, 200⟩

/-- Two bytes are read, and the read of eight further ones fails. -/
def cutShort : List Outcome :=
  [.available 2 (.returns [0x7B, 0x7D] (by decide)), .available 8 (.fails [] (by decide))]

/-- The response then carries eight zeros that nobody sent, with the server's status. -/
theorem cutShort_pads :
    httpExecute fetched cutShort {} = some ⟨[0x7B, 0x7D, 0, 0, 0, 0, 0, 0, 0, 0], 200⟩ ∧
      fetched.received cutShort = [0x7B, 0x7D] ∧
        (response ⟨[0x7B, 0x7D, 0, 0, 0, 0, 0, 0, 0, 0], 200⟩).body ≠ fetched.received cutShort :=
  by decide

end NoMercyRecomp.HttpBody
