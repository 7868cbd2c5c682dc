import TreeSieve.Writer
import Mathlib.Data.List.Basic

/-!
# What a writer delivers

A writer hands its text to a sink in attempts, of which each may be taken in part, and then offers
the rest. The attempts of a write are logged here (`Sink.logged`), which changes nothing about the
write (`Writer.call_logged`), and the loop that makes them is described without a bound on their
number (`Delivery`): every attempt offers exactly what the ones before it left over.

So whatever calls are made, what the sink has taken is a beginning of every text written, all of it
where the write succeeds, one after the other (`Writer.records_faithful`).
-/

namespace TreeSieve

/-! ## Attempts -/

/-- An attempt to hand over bytes, with what the sink answered. -/
structure Attempt where
  offered : List UInt8
  answer : Except Fault Nat

namespace Attempt

/-- The bytes that the sink took. -/
def taken (a : Attempt) : List UInt8 :=
  match a.answer with
  | .ok n => a.offered.take n
  | .error _ => []

def fault? (a : Attempt) : Option Fault :=
  match a.answer with
  | .ok _ => none
  | .error fault => some fault

end Attempt

namespace Sink

variable {σ : Type}

/-- A sink that takes something of what it is offered, and no more than that, unless it fails. -/
def Takes (k : Sink σ) : Prop :=
  ∀ s bytes n, bytes ≠ [] → (k.put s bytes).2 = .ok n → 0 < n ∧ n ≤ bytes.length

/-- A sink with a log of the attempts. -/
def logged (k : Sink σ) : Sink (σ × List Attempt) where
  put := fun (s, log) bytes =>
    (((k.put s bytes).1, log ++ [⟨bytes, (k.put s bytes).2⟩]), (k.put s bytes).2)

theorem logged_put {k : Sink σ} {s s' : σ} {bytes : List UInt8} {answer : Except Fault Nat}
    (h : k.put s bytes = (s', answer)) (log : List Attempt) :
    k.logged.put (s, log) bytes = ((s', log ++ [⟨bytes, answer⟩]), answer) := by
  simp only [logged, h]

end Sink

/-- The attempts to hand over bytes, and how they end: each of them offers what is left, until
nothing is left or the sink fails. -/
inductive Delivery : List UInt8 → List Attempt → Except Fault Unit → Prop
  | done : Delivery [] [] (.ok ())
  | taken {bytes : List UInt8} {n : Nat} {rest : List Attempt} {result : Except Fault Unit}
      (hn : 0 < n) (hle : n ≤ bytes.length) (h : Delivery (bytes.drop n) rest result) :
      Delivery bytes (⟨bytes, .ok n⟩ :: rest) result
  | failed {bytes : List UInt8} {fault : Fault} (hne : bytes ≠ []) :
      Delivery bytes [⟨bytes, .error fault⟩] (.error fault)

namespace Delivery

variable {bytes : List UInt8} {attempts : List Attempt} {result : Except Fault Unit}

/-- There are at most as many attempts as bytes. -/
theorem length_le (h : Delivery bytes attempts result) : attempts.length ≤ bytes.length := by
  induction h with
  | done => exact Nat.le_refl 0
  | taken hn hle _ ih =>
    rw [List.length_drop] at ih
    rw [List.length_cons]
    omega
  | failed hne => exact List.length_pos_of_ne_nil hne

/-- **No gap**: the sink takes a beginning of the bytes. -/
theorem taken_isPrefix (h : Delivery bytes attempts result) :
    attempts.flatMap Attempt.taken <+: bytes := by
  induction h with
  | done => exact List.prefix_rfl
  | @taken bytes n rest _ _ _ _ ih =>
    have hsplit : bytes.take n ++ rest.flatMap Attempt.taken <+: bytes.take n ++ bytes.drop n :=
      (List.prefix_append_right_inj _).2 ih
    rwa [List.take_append_drop] at hsplit
  | failed hne => exact List.nil_prefix

theorem taken_eq (h : Delivery bytes attempts (.ok ())) :
    attempts.flatMap Attempt.taken = bytes := by
  generalize hresult : Except.ok () = result at h
  induction h with
  | done => rfl
  | @taken bytes n _ _ _ _ _ ih =>
    rw [List.flatMap_cons, ih hresult]
    exact List.take_append_drop n bytes
  | failed hne => cases hresult

/-- A delivery fails if one of its attempts does. -/
theorem result_eq (h : Delivery bytes attempts result) :
    result = match attempts.findSome? Attempt.fault? with
      | none => .ok ()
      | some fault => .error fault := by
  induction h with
  | done => rfl
  | taken _ _ _ ih => exact ih
  | failed hne => rfl

end Delivery

namespace Sink

variable {σ : Type} {k : Sink σ}

/-- The log does not change what happens, and is only added to. -/
theorem deliver_logged (k : Sink σ) (attempts : Nat) (s : σ) (log : List Attempt)
    (bytes : List UInt8) : k.logged.deliver attempts (s, log) bytes =
      (((k.deliver attempts s bytes).1,
        log ++ (k.logged.deliver attempts (s, []) bytes).1.2), (k.deliver attempts s bytes).2) := by
  induction attempts generalizing s log bytes with
  | zero => cases bytes <;> simp [deliver]
  | succ attempts ih =>
    cases bytes with
    | nil => simp [deliver]
    | cons b bytes =>
      rw [deliver, deliver, deliver]
      cases hput : k.put s (b :: bytes) with
      | mk s' answer =>
        rw [logged_put hput, logged_put hput, List.nil_append]
        cases answer with
        | error fault => rfl
        | ok n =>
          simp only [ih s' (log ++ _), ih s' [_], List.append_assoc]

/-- **The loop** makes the attempts that a delivery consists of. The bound on their number is never
reached. -/
theorem delivery_of_deliver (hk : k.Takes) {attempts : Nat} {bytes : List UInt8}
    (hlength : bytes.length ≤ attempts) (s : σ) :
    Delivery bytes (k.logged.deliver attempts (s, []) bytes).1.2
      (k.deliver attempts s bytes).2 := by
  induction attempts generalizing s bytes with
  | zero =>
    obtain rfl := List.length_eq_zero_iff.1 (Nat.le_zero.1 hlength)
    exact .done
  | succ attempts ih =>
    cases bytes with
    | nil => exact .done
    | cons b bytes =>
      have htakes := hk s (b :: bytes)
      rw [deliver, deliver]
      cases hput : k.put s (b :: bytes) with
      | mk s' answer =>
        rw [logged_put hput, List.nil_append]
        cases answer with
        | error fault => exact .failed (List.cons_ne_nil b bytes)
        | ok n =>
          obtain ⟨hn, hle⟩ := htakes n (List.cons_ne_nil b bytes) (by rw [hput])
          have hrest : ((b :: bytes).drop n).length ≤ attempts := by
            rw [List.length_drop]
            rw [List.length_cons] at hlength ⊢
            omega
          simp only [deliver_logged k attempts s' [_]]
          exact .taken hn hle (ih hrest s')

end Sink

/-! ## Calls -/

/-- A fault as a write reports it. -/
def WriteError.ofFault : Fault → WriteError
  | .brokenPipe => .brokenPipe
  | fault => .failed fault

namespace Writer

variable {σ : Type}

/-- A call of a writer, with what the world has to do with it. -/
inductive Call where
  /-- A write, and whether a signal has been received by then. -/
  | write (data : Text) (interrupted : Bool)
  /-- A close, and the fault in closing the file, if any. -/
  | close (fault? : Option Fault)

def Call.isWrite : Call → Bool
  | .write _ _ => true
  | .close _ => false

/-- The writer and the state of the sink after a call, and how the call ends. -/
def call (w : Writer) (k : Sink σ) (s : σ) : Call → Writer × σ × Except WriteError Unit
  | .write data interrupted =>
    match w.write k interrupted s data with
    | (s, result) => (w, s, result)
  | .close fault? =>
    match w.close fault? with
    | (w, result) => (w, s, result.mapError .failed)

/-- The state of the sink after calls of a writer, one after the other, and how each of them
ends. -/
def calls (w : Writer) (k : Sink σ) (s : σ) : List Call → σ × List (Except WriteError Unit)
  | [] => (s, [])
  | c :: rest =>
    let (w, s, result) := w.call k s c
    let (s, results) := w.calls k s rest
    (s, result :: results)

/-- A call of a writer with the attempts that it makes. -/
structure Record where
  call : Call
  result : Except WriteError Unit
  attempts : List Attempt

/-- The bytes that the sink takes during a call. -/
def Record.taken (r : Record) : List UInt8 := r.attempts.flatMap Attempt.taken

/-- The fault of the sink during a call. -/
def Record.fault? (r : Record) : Option Fault := r.attempts.findSome? Attempt.fault?

/-- What a record says of a faithful writer. In a write the sink takes a beginning of the text, and
all of it if the write succeeds; a fault of the sink is the fault of the write; and after a signal
there is no attempt. A close makes no attempt. -/
def Record.IsFaithful (r : Record) : Prop :=
  match r.call with
  | .write data interrupted =>
    r.attempts.length ≤ (Utf8.encode data).length ∧
    r.taken <+: Utf8.encode data ∧
    (r.result = .ok () → r.taken = Utf8.encode data) ∧
    (∀ fault, r.fault? = some fault → r.result = .error (.ofFault fault)) ∧
    (interrupted = true → r.attempts = [] ∧ ∃ e, r.result = .error e)
  | .close _ => r.attempts = []

/-- The calls of a writer with their attempts, each with a log of its own. -/
def records (w : Writer) (k : Sink σ) (s : σ) : List Call → List Record
  | [] => []
  | c :: rest =>
    let (next, s', result) := w.call k s c
    ⟨c, result, (w.call k.logged (s, []) c).2.1.2⟩ :: next.records k s' rest

/-! ### One call -/

theorem write_of_closed {w : Writer} (hw : w.closed = true) (k : Sink σ) (interrupted : Bool)
    (s : σ) (data : Text) : w.write k interrupted s data = (s, .error .closed) := by
  rw [write, if_pos hw]

theorem write_of_interrupted {w : Writer} (hw : w.closed = false) (k : Sink σ) (s : σ)
    (data : Text) : w.write k true s data = (s, .error .brokenPipe) := by
  rw [write, hw]
  rfl

theorem write_of_open {w : Writer} (hw : w.closed = false) (k : Sink σ) (s : σ) (data : Text) :
    w.write k false s data =
      ((k.deliverAll s (Utf8.encode data)).1,
        (k.deliverAll s (Utf8.encode data)).2.mapError .ofFault) := by
  rw [write, hw, if_neg Bool.false_ne_true, if_neg Bool.false_ne_true]
  cases k.deliverAll s (Utf8.encode data) with
  | mk s' result =>
    cases result with
    | ok _ => rfl
    | error fault => cases fault <;> rfl

/-- The log of a call is only added to, and the call goes on as without it. -/
theorem call_logged (w : Writer) (k : Sink σ) (s : σ) (log : List Attempt) (c : Call) :
    w.call k.logged (s, log) c =
      ((w.call k s c).1, ((w.call k s c).2.1, log ++ (w.call k.logged (s, []) c).2.1.2),
        (w.call k s c).2.2) := by
  cases c with
  | close fault? => simp [call]
  | write data interrupted =>
    simp only [call]
    cases hw : w.closed with
    | true => simp [write_of_closed hw]
    | false =>
      cases interrupted with
      | true => simp [write_of_interrupted hw]
      | false =>
        simp only [write_of_open hw, Sink.deliverAll]
        rw [k.deliver_logged _ s log]

/-- How a call of a writer can go, which is closed or not. -/
inductive Record.Goes (closed : Bool) : Record → Prop
  | refused {data : Text} {interrupted : Bool} (hclosed : closed = true) :
      Goes closed ⟨.write data interrupted, .error .closed, []⟩
  | interrupted {data : Text} (hopen : closed = false) :
      Goes closed ⟨.write data true, .error .brokenPipe, []⟩
  | delivered {data : Text} {attempts : List Attempt} {result : Except Fault Unit}
      (hopen : closed = false) (h : Delivery (Utf8.encode data) attempts result) :
      Goes closed ⟨.write data false, result.mapError .ofFault, attempts⟩
  | closing {fault? : Option Fault} {result : Except WriteError Unit} :
      Goes closed ⟨.close fault?, result, []⟩

/-- **One call.** -/
theorem goes_call {k : Sink σ} (hk : k.Takes) (w : Writer) (s : σ) (c : Call) :
    Record.Goes w.closed ⟨c, (w.call k s c).2.2, (w.call k.logged (s, []) c).2.1.2⟩ := by
  cases c with
  | close fault? => exact .closing
  | write data interrupted =>
    simp only [call]
    cases hw : w.closed with
    | true =>
      rw [write_of_closed hw, write_of_closed hw]
      exact .refused rfl
    | false =>
      cases interrupted with
      | true =>
        rw [write_of_interrupted hw, write_of_interrupted hw]
        exact .interrupted rfl
      | false =>
        rw [write_of_open hw, write_of_open hw]
        exact .delivered rfl (Sink.delivery_of_deliver hk (Nat.le_refl _) s)

theorem Record.Goes.isFaithful {closed : Bool} {r : Record} (h : r.Goes closed) :
    r.IsFaithful := by
  cases h with
  | refused _ | interrupted _ =>
    exact ⟨Nat.zero_le _, List.nil_prefix, nofun, nofun, fun _ => ⟨rfl, _, rfl⟩⟩
  | closing => rfl
  | @delivered data attempts result _ h =>
    refine ⟨h.length_le, h.taken_isPrefix, fun hok => ?_, fun fault hfault => ?_, nofun⟩
    · cases result with
      | ok _ => exact h.taken_eq
      | error fault => cases hok
    · have hresult := h.result_eq
      rw [show attempts.findSome? Attempt.fault? = some fault from hfault] at hresult
      rw [hresult]
      rfl

/-- A closed writer stays closed, and one that was closed without a fault is closed. -/
theorem closed_call {w : Writer} {k : Sink σ} {s : σ} {c : Call} (h : w.closed = true ∨
    c.isWrite = false ∧ (w.call k s c).2.2 = .ok ()) : (w.call k s c).1.closed = true := by
  cases c with
  | write data interrupted =>
    rcases h with hw | ⟨hwrite, -⟩
    · exact hw
    · cases hwrite
  | close fault? =>
    cases hw : w.closed with
    | true => simp [call, close, hw]
    | false =>
      obtain ⟨-, hok⟩ := h.resolve_left (by simp [hw])
      rw [call, close, hw, if_neg Bool.false_ne_true] at hok ⊢
      cases hfault : if w.ownsFile then fault? else none with
      | none => rfl
      | some fault =>
        rw [hfault] at hok
        cases fault <;> first | rfl | cases hok

/-! ### Many calls -/

theorem records_cons (w : Writer) (k : Sink σ) (s : σ) (c : Call) (rest : List Call) :
    w.records k s (c :: rest) =
      ⟨c, (w.call k s c).2.2, (w.call k.logged (s, []) c).2.1.2⟩ ::
        (w.call k s c).1.records k (w.call k s c).2.1 rest :=
  rfl

/-- The records belong to the calls and have the results of the calls. -/
theorem map_records (w : Writer) (k : Sink σ) (s : σ) (cs : List Call) :
    (w.records k s cs).map Record.call = cs ∧
      (w.records k s cs).map Record.result = (w.calls k s cs).2 := by
  induction cs generalizing w s with
  | nil => exact ⟨rfl, rfl⟩
  | cons c rest ih =>
    obtain ⟨hcalls, hresults⟩ := ih (w.call k s c).1 (w.call k s c).2.1
    exact ⟨congrArg _ hcalls, congrArg _ hresults⟩

/-- The attempts of the records are all that the sink sees. -/
theorem calls_logged (w : Writer) (k : Sink σ) (s : σ) (log : List Attempt) (cs : List Call) :
    w.calls k.logged (s, log) cs =
      (((w.calls k s cs).1, log ++ (w.records k s cs).flatMap Record.attempts),
        (w.calls k s cs).2) := by
  induction cs generalizing w s log with
  | nil => simp [calls, records]
  | cons c rest ih =>
    rw [calls, call_logged]
    simp only [ih, calls, records, List.flatMap_cons, List.append_assoc]

/-- A closed writer writes nothing any more. -/
theorem refused_of_mem_records {w : Writer} (hw : w.closed = true) {k : Sink σ} {s : σ}
    {cs : List Call} {r : Record} (hr : r ∈ w.records k s cs) (hwrite : r.call.isWrite = true) :
    r.attempts = [] ∧ r.result = .error .closed := by
  induction cs generalizing w s with
  | nil => cases hr
  | cons c rest ih =>
    rcases List.mem_cons.1 hr with rfl | hr
    · cases c with
      | write data interrupted => simp [call, write_of_closed hw]
      | close fault? => cases hwrite
    · exact ih (closed_call (Or.inl hw)) hr

theorem isFaithful_of_mem_records {k : Sink σ} (hk : k.Takes) {w : Writer} {s : σ}
    {cs : List Call} {r : Record} (hr : r ∈ w.records k s cs) : r.IsFaithful := by
  induction cs generalizing w s with
  | nil => cases hr
  | cons c rest ih =>
    rcases List.mem_cons.1 hr with rfl | hr
    · exact (goes_call hk w s c).isFaithful
    · exact ih hr

theorem pairwise_records (w : Writer) (k : Sink σ) (s : σ) (cs : List Call) :
    (w.records k s cs).Pairwise fun earlier later =>
      earlier.call.isWrite = false → earlier.result = .ok () → later.call.isWrite = true →
        later.attempts = [] ∧ later.result = .error .closed := by
  induction cs generalizing w s with
  | nil => exact .nil
  | cons c rest ih =>
    refine .cons (fun later hlater hclose hok hwrite => ?_) (ih _ _)
    exact refused_of_mem_records (closed_call (Or.inr ⟨hclose, hok⟩)) hlater hwrite

/-- Texts that are all written successfully are delivered one after the other. -/
theorem taken_records_of_ok {k : Sink σ} (hk : k.Takes) {w : Writer} {s : σ} {texts : List Text}
    (h : ∀ r ∈ w.records k s (texts.map (.write · false)), r.result = .ok ()) :
    (w.records k s (texts.map (.write · false))).flatMap Record.taken =
      texts.flatMap Utf8.encode := by
  induction texts generalizing w s with
  | nil => rfl
  | cons text rest ih =>
    rw [List.map_cons, records_cons] at h ⊢
    obtain ⟨hfirst, hrest⟩ := List.forall_mem_cons.1 h
    have hfaithful := (goes_call hk w s (.write text false)).isFaithful
    rw [List.flatMap_cons, List.flatMap_cons, ih hrest]
    exact congrArg (· ++ _) (hfaithful.2.2.1 hfirst)

/-- **What is delivered.** Every call ends, and what the sink sees of all calls is what it sees of
one after the other. Each call is faithful, and nothing is written any more once the writer was
closed without a fault. -/
theorem records_faithful {k : Sink σ} (hk : k.Takes) (w : Writer) (s : σ) (cs : List Call) :
    (w.records k s cs).map Record.call = cs ∧
    w.calls k.logged (s, []) cs =
      (((w.calls k s cs).1, (w.records k s cs).flatMap Record.attempts),
        (w.records k s cs).map Record.result) ∧
    (∀ r ∈ w.records k s cs, r.IsFaithful) ∧
    (w.records k s cs).Pairwise fun earlier later =>
      earlier.call.isWrite = false → earlier.result = .ok () → later.call.isWrite = true →
        later.attempts = [] ∧ later.result = .error .closed := by
  obtain ⟨hcalls, hresults⟩ := w.map_records k s cs
  refine ⟨hcalls, ?_, fun r hr => isFaithful_of_mem_records hk hr, w.pairwise_records k s cs⟩
  rw [calls_logged, hresults, List.nil_append]

/-- A sink that takes one or two bytes at a time, and fails once. -/
def shortWrites : Sink Nat where
  put n bytes := (n + 1, if n = 5 then .error .noSpace else .ok (min (1 + n % 2) bytes.length))

theorem records_faithful_short_writes :
    let records := Writer.records { ownsFile := true } shortWrites 0
      [.write "abc" false, .write "defgh" false, .write "i" true, .write "jk" false, .close none,
        .write "l" false]
    (∀ r ∈ records, r.IsFaithful) ∧
    records.map Record.result =
      [.ok (), .error (.failed .noSpace), .error .brokenPipe, .ok (), .ok (), .error .closed] ∧
    records.map Record.taken = ["abc", "defg", "", "jk", "", ""].map Utf8.encode := by
  have htakes : shortWrites.Takes := by
    intro n bytes taken hne htaken
    have hlength := List.length_pos_of_ne_nil hne
    simp only [shortWrites] at htaken
    split at htaken
    · cases htaken
    · obtain rfl := Except.ok.inj htaken
      omega
  exact ⟨(records_faithful htakes _ 0 _).2.2.1, by decide +kernel, by decide +kernel⟩

end Writer

end TreeSieve
