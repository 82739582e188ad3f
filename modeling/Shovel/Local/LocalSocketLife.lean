import Shovel.Local.LocalSocket

/-!
# The life of a local socket

A `LocalSocket` from its constructor over any reads and writes of its worker to its
destructor, with the system calls that it makes on the way. `LocalForm` says in
which forms a socket can be between two calls.

`m_fd == 0` stands for a socket that is not open. The destructor calls `close`
without looking at it, so a socket that could not be opened, or that a failed read
has closed, ends with closing the descriptor 0, which belongs to somebody else.

The calls of the two threads of a worker are taken one after another. The paths fit
into `sun_path`: what `strcpy` does with a longer one is left out.
-/

namespace Shovel.Local

open Containers Network

/-- `LOCALSOCKET_ARRAY_SIZE`. -/
def LOCALSOCKET_ARRAY_SIZE : Nat := 65535

/-- What a call of `recvfrom` with room for 65535 bytes ends with: a datagram, or an error. -/
inductive RecvAnswer where
  | received (bytes : List UInt8) (fits : bytes.length ≤ LOCALSOCKET_ARRAY_SIZE)
  | failed (errno : Nat)
  deriving DecidableEq

/-- `errno == EAGAIN || errno == EWOULDBLOCK`. -/
def NothingThere (errno : Nat) : Prop := errno = EAGAIN ∨ errno = EWOULDBLOCK

instance (errno : Nat) : Decidable (NothingThere errno) :=
  inferInstanceAs (Decidable (_ ∨ _))

/-- A system call with what it returned. The results of `setsockopt` and `unlink` are not read. -/
inductive LocalCall where
  | unlink (path : String)
  | socket (result : Int)
  | bind (fd : Int) (path : String) (result : Int)
  | recvfrom (fd : Int) (answer : RecvAnswer)
  | sendto (fd : Int) (path : String) (result : SendResult)
  | close (fd : Int)
  deriving DecidableEq

/-- What the system answers to `socket` and `bind`. -/
structure OpenAnswers where
  socket : Int
  bind : Int

/-- A local socket with its paths and the system calls that it has made. -/
structure LocalLife where
  socket : LocalSocket
  pathForReading : String
  pathForWriting : String
  calls : List LocalCall
  deriving DecidableEq

namespace LocalLife

variable {Nm : Nat}

/-- One more system call. -/
def record (s : LocalLife) (c : LocalCall) : LocalLife := { s with calls := s.calls ++ [c] }

/-- `m_fd = fd`. -/
def setFd (s : LocalLife) (fd : Int) : LocalLife := { s with socket := ⟨fd⟩ }

/-- `init_socket`. -/
def initSocket (s : LocalLife) (pathInput pathOutput : String) (answers : OpenAnswers) :
    LocalLife :=
  let s := { s with pathForReading := pathInput, pathForWriting := pathOutput }
  let s := s.record (.unlink s.pathForReading)
  let s := (s.record (.socket answers.socket)).setFd answers.socket
  if s.socket.fd < 0 then s.setFd 0
  else
    let s := s.record (.bind s.socket.fd s.pathForReading answers.bind)
    if answers.bind < 0 then (s.record (.close s.socket.fd)).setFd 0 else s

/-- The constructor. -/
def construct (pathInput pathOutput : String) (answers : OpenAnswers) : LocalLife :=
  initSocket ⟨⟨0⟩, "", "", []⟩ pathInput pathOutput answers

/-- `read`: the value returned, the array and the socket. -/
def read (s : LocalLife) (buf : SizedArray Nm) (answer : RecvAnswer) :
    Int × SizedArray Nm × LocalLife :=
  let buf := buf.clear
  if s.socket.fd = 0 then (-1, buf, s)
  else
    let s := s.record (.recvfrom s.socket.fd answer)
    match answer with
    | .failed errno =>
        if NothingThere errno then (0, buf, s)
        else (-1, buf, (s.record (.close s.socket.fd)).setFd 0)
    | .received bytes _ => (bytes.length, (buf.store bytes).resize bytes.length, s)

/-- `write`. -/
def write (s : LocalLife) (buf : SizedArray Nm) (result : SendResult) :
    Int × SizedArray Nm × LocalLife :=
  if s.socket.fd = 0 then (-1, buf, s)
  else
    let s := s.record (.sendto s.socket.fd s.pathForWriting result)
    if PeerAbsent result then (0, buf, s) else (result.status, buf.clear, s)

/-- The destructor. -/
def destroy (s : LocalLife) : LocalLife :=
  (s.record (.close s.socket.fd)).record (.unlink s.pathForReading)

/-- `LocalSocketWorker::read_data_from_source` of a worker with a socket. -/
def readDataFromSource (s : LocalLife) (buf : SizedArray Nm) (answer : RecvAnswer) :
    Int × SizedArray Nm × LocalLife :=
  let (status, buf, s) := s.read buf answer
  if status < 0 then (-1, buf, s) else (status, buf, s)

/-- `LocalSocketWorker::write_data_to_source` of a worker with a socket. -/
def writeDataToSource (s : LocalLife) (buf : SizedArray Nm) (result : SendResult) :
    Int × SizedArray Nm × LocalLife :=
  let (status, buf, s) := s.write buf result
  if status < 0 then (-1, buf, s) else (status, buf, s)

end LocalLife

/-- A call of one of the two threads of a worker, with its array and the answer of the system. -/
inductive LocalOp where
  | read (buf : SizedArray LOCALSOCKET_ARRAY_SIZE) (answer : RecvAnswer)
  | write (buf : SizedArray LOCALSOCKET_ARRAY_SIZE) (result : SendResult)

namespace LocalLife

/-- One call. -/
def call (s : LocalLife) : LocalOp → Int × LocalLife
  | .read buf answer =>
      ((s.readDataFromSource buf answer).1, (s.readDataFromSource buf answer).2.2)
  | .write buf result =>
      ((s.writeDataToSource buf result).1, (s.writeDataToSource buf result).2.2)

/-- Successive calls with the values that they return. -/
def callAll : List LocalOp → LocalLife → List Int × LocalLife
  | [], s => ([], s)
  | op :: rest, s =>
      let (ret, s) := s.call op
      let (rets, s) := callAll rest s
      (ret :: rets, s)

/-- The write of the worker returns what `LocalSocketWorker.writeDataToSource` does, and leaves the
same array. -/
theorem writeDataToSource_eq {Nm : Nat} (s : LocalLife) (buf : SizedArray Nm)
    (result : SendResult) :
    ((s.writeDataToSource buf result).1, (s.writeDataToSource buf result).2.1) =
      ((LocalSocketWorker.writeDataToSource ⟨some s.socket⟩ buf result).ret,
        (LocalSocketWorker.writeDataToSource ⟨some s.socket⟩ buf result).buf) := by
  simp only [writeDataToSource, write, LocalSocketWorker.writeDataToSource, LocalSocket.write]
  repeat' split
  all_goals simp_all

end LocalLife

/-! ## The forms of a local socket -/

namespace LocalCall

/-- The descriptor on which bytes are received or sent. -/
def transfer : LocalCall → Option Int
  | recvfrom fd _ | sendto fd _ _ => some fd
  | unlink _ | socket _ | bind _ _ _ | close _ => none

/-- The descriptor that is closed. -/
def closed : LocalCall → Option Int
  | close fd => some fd
  | _ => none

/-- The event makes the socket close its descriptor: it cannot be bound, or a read fails although
something is there. -/
def breaks : LocalCall → Bool
  | bind _ _ result => decide (result < 0)
  | recvfrom _ (.failed errno) => !decide (NothingThere errno)
  | _ => false

/-- A system call behind which a socket for this descriptor goes on. -/
structure Clean (d : Int) (c : LocalCall) : Prop where
  keeps : c.closed = none
  same : ∀ fd, c.transfer = some fd → fd = d ∧ 0 < fd
  goesOn : c.breaks = false

end LocalCall

/-- A local socket for which `socket` has returned `d`, between two calls. -/
inductive LocalForm (d : Int) (s : LocalLife) : Prop where
  | opened (hpos : 0 < d) (hfd : s.socket.fd = d) (hclean : ∀ c ∈ s.calls, c.Clean d)
  | broken {before : List LocalCall} {last : LocalCall} (hpos : 0 ≤ d) (hfd : s.socket.fd = 0)
      (hclean : ∀ c ∈ before, c.Clean d) (hlast : last.breaks = true)
      (hsame : last.closed = none ∧ ∀ fd, last.transfer = some fd → fd = d ∧ 0 < fd)
      (hcalls : s.calls = before ++ [last, .close d])
  | unopened (hnone : d ≤ 0) (hfd : s.socket.fd = 0) (hclean : ∀ c ∈ s.calls, c.Clean d)

namespace LocalLife

variable {d : Int} {s : LocalLife}

/-- One more system call behind which the socket goes on. -/
theorem clean_record {calls : List LocalCall} {last : LocalCall}
    (hclean : ∀ c ∈ calls, c.Clean d) (hlast : last.Clean d) :
    ∀ c ∈ calls ++ [last], c.Clean d := by
  intro c hc
  rcases List.mem_append.mp hc with hearlier | hnew
  · exact hclean c hearlier
  · obtain rfl := List.mem_singleton.mp hnew
    exact hlast

/-- The form of a new socket. -/
theorem construct_form (pathInput pathOutput : String) (answers : OpenAnswers) :
    LocalForm answers.socket (construct pathInput pathOutput answers) := by
  have hopening : ∀ c ∈ [LocalCall.unlink pathInput, .socket answers.socket],
      c.Clean answers.socket := by
    intro c hc
    rcases List.mem_pair.mp hc with rfl | rfl
    · exact ⟨rfl, nofun, rfl⟩
    · exact ⟨rfl, nofun, rfl⟩
  by_cases hfailed : answers.socket < 0
  · refine .unopened (Int.le_of_lt hfailed) ?_ ?_
    · simp [construct, initSocket, setFd, record, hfailed]
    · simpa [construct, initSocket, setFd, record, hfailed] using hopening
  · have hopen : 0 ≤ answers.socket := Int.not_lt.mp hfailed
    by_cases hbind : answers.bind < 0
    · have hbreaks :
          (LocalCall.bind answers.socket pathInput answers.bind).breaks = true := by
        simp [LocalCall.breaks, hbind]
      refine .broken hopen ?_ hopening hbreaks ⟨rfl, nofun⟩ ?_
      · simp [construct, initSocket, setFd, record, hfailed, hbind]
      · simp [construct, initSocket, setFd, record, hfailed, hbind]
    · have hbind' : (LocalCall.bind answers.socket pathInput answers.bind).Clean answers.socket :=
        ⟨rfl, nofun, by simpa [LocalCall.breaks] using Int.not_lt.mp hbind⟩
      have hbound := clean_record hopening hbind'
      have hcalls : (construct pathInput pathOutput answers).calls =
          [.unlink pathInput, .socket answers.socket] ++
            [.bind answers.socket pathInput answers.bind] := by
        simp [construct, initSocket, setFd, record, hfailed, hbind]
      have hfd : (construct pathInput pathOutput answers).socket.fd = answers.socket := by
        simp [construct, initSocket, setFd, record, hfailed, hbind]
      by_cases hzero : answers.socket = 0
      · exact .unopened (Int.le_of_eq hzero) (hfd.trans hzero) (hcalls ▸ hbound)
      · exact .opened (by omega) hfd (hcalls ▸ hbound)

/-- A socket that is not open reports −1 and makes no system call. -/
theorem call_of_zero (hfd : s.socket.fd = 0) (op : LocalOp) : s.call op = (-1, s) := by
  cases op with
  | read buf answer => simp [call, readDataFromSource, read, hfd]
  | write buf result => simp [call, writeDataToSource, write, hfd]

/-- The socket behind a read of an open one. -/
theorem call_read (hfd : s.socket.fd ≠ 0) (buf : SizedArray LOCALSOCKET_ARRAY_SIZE)
    (answer : RecvAnswer) :
    (s.call (.read buf answer)).2 =
      if (LocalCall.recvfrom s.socket.fd answer).breaks then
        ((s.record (.recvfrom s.socket.fd answer)).record (.close s.socket.fd)).setFd 0
      else s.record (.recvfrom s.socket.fd answer) := by
  cases answer with
  | received bytes fits =>
      simp only [call, readDataFromSource, read, hfd, if_false, LocalCall.breaks]
      split <;> rfl
  | failed errno =>
      by_cases hthere : NothingThere errno
      · simp [call, readDataFromSource, read, hfd, LocalCall.breaks, hthere]
      · simp [call, readDataFromSource, read, hfd, LocalCall.breaks, hthere, record]

/-- The socket behind a write of an open one. -/
theorem call_write (hfd : s.socket.fd ≠ 0) (buf : SizedArray LOCALSOCKET_ARRAY_SIZE)
    (result : SendResult) :
    (s.call (.write buf result)).2 =
      s.record (.sendto s.socket.fd s.pathForWriting result) := by
  simp only [call, writeDataToSource, write, hfd, if_false]
  repeat' split
  all_goals rfl

/-- No call leads out of the forms of a socket. -/
theorem call_form (h : LocalForm d s) (op : LocalOp) : LocalForm d (s.call op).2 := by
  cases h with
  | broken hpos hfd hclean hlast hsame hcalls =>
      rw [call_of_zero hfd]
      exact .broken hpos hfd hclean hlast hsame hcalls
  | unopened hnone hfd hclean =>
      rw [call_of_zero hfd]
      exact .unopened hnone hfd hclean
  | opened hpos hfd hclean =>
      have hne : s.socket.fd ≠ 0 := by omega
      have hsame : ∀ fd, some s.socket.fd = some fd → fd = d ∧ 0 < fd := by
        rintro fd hsome
        obtain rfl := Option.some.inj hsome
        exact ⟨hfd, by omega⟩
      cases op with
      | read buf answer =>
          rw [call_read hne]
          cases hbreaks : (LocalCall.recvfrom s.socket.fd answer).breaks with
          | false =>
              have hclean' : (LocalCall.recvfrom s.socket.fd answer).Clean d :=
                ⟨rfl, hsame, hbreaks⟩
              exact .opened hpos hfd (clean_record hclean hclean')
          | true =>
              refine .broken (Int.le_of_lt hpos) rfl hclean hbreaks ⟨rfl, hsame⟩ ?_
              simp [record, setFd, hfd]
      | write buf result =>
          rw [call_write hne]
          have hclean' : (LocalCall.sendto s.socket.fd s.pathForWriting result).Clean d :=
            ⟨rfl, hsame, rfl⟩
          exact .opened hpos hfd (clean_record hclean hclean')

/-- No sequence of calls does. -/
theorem callAll_form (h : LocalForm d s) (ops : List LocalOp) : LocalForm d (callAll ops s).2 := by
  induction ops generalizing s with
  | nil => exact h
  | cons op rest ih => exact ih (call_form h op)

/-- Every call on a socket that is not open returns −1. -/
theorem callAll_of_zero (hfd : s.socket.fd = 0) (ops : List LocalOp) :
    callAll ops s = (List.replicate ops.length (-1), s) := by
  induction ops with
  | nil => rfl
  | cons op rest ih =>
      simp only [callAll, call_of_zero hfd, ih, List.length_cons, List.replicate_succ]

/-- Clean calls close nothing and break nothing. -/
theorem clean_spec {calls : List LocalCall} (hclean : ∀ c ∈ calls, c.Clean d) :
    calls.filterMap LocalCall.closed = [] ∧ calls.any LocalCall.breaks = false := by
  refine ⟨List.filterMap_eq_nil_iff.mpr fun c hc => (hclean c hc).keeps, ?_⟩
  rw [List.any_eq_false]
  intro c hc
  simp [(hclean c hc).goesOn]

/-- What the destructor adds. -/
theorem destroy_calls (s : LocalLife) :
    s.destroy.calls = s.calls ++ [.close s.socket.fd, .unlink s.pathForReading] := by
  simp [destroy, record]

/-- Over the whole life of a local socket: which descriptors are closed, in this order. -/
theorem closed_destroy (h : LocalForm d s) :
    s.destroy.calls.filterMap LocalCall.closed =
      if d < 0 then [0] else if s.calls.any LocalCall.breaks then [d, 0] else [d] := by
  rw [destroy_calls, List.filterMap_append]
  cases h with
  | opened hpos hfd hclean =>
      obtain ⟨hnone, hwhole⟩ := clean_spec hclean
      rw [hnone, hwhole, if_neg (by omega), hfd]
      rfl
  | @broken before last hpos hfd hclean hlast hsame hcalls =>
      obtain ⟨hnone, -⟩ := clean_spec hclean
      have hbreaks : s.calls.any LocalCall.breaks = true := by
        rw [hcalls, List.any_append]
        simp [hlast]
      have hlastTwo : [last, .close d].filterMap LocalCall.closed = [d] := by
        rw [List.filterMap_cons_none hsame.1]
        rfl
      rw [hbreaks, hcalls, List.filterMap_append, hnone, hlastTwo, if_neg (Int.not_lt.mpr hpos),
        hfd]
      rfl
  | unopened hnone hfd hclean =>
      obtain ⟨hnothing, hwhole⟩ := clean_spec hclean
      rw [hnothing, hwhole, hfd]
      by_cases hfailed : d < 0
      · simp [hfailed, LocalCall.closed]
      · obtain rfl : d = 0 := by omega
        simp [LocalCall.closed]

/-- Bytes are transferred on the socket's own descriptor only, and not behind a close. -/
theorem transfers_destroy (h : LocalForm d s) :
    (∀ c ∈ s.destroy.calls, ∀ fd, c.transfer = some fd → fd = d ∧ 0 < fd) ∧
      s.destroy.calls.Pairwise fun earlier later =>
        earlier.closed ≠ none → later.transfer = none := by
  -- the system calls in front of the first close, and those from there on
  have hsplit : ∃ before after, s.destroy.calls = before ++ after ∧
      (∀ c ∈ before, c.closed = none ∧ ∀ fd, c.transfer = some fd → fd = d ∧ 0 < fd) ∧
      ∀ c ∈ after, c.transfer = none := by
    cases h with
    | opened _ _ hclean | unopened _ _ hclean =>
        refine ⟨s.calls, _, s.destroy_calls, fun c hc => ?_, by simp [LocalCall.transfer]⟩
        exact ⟨(hclean c hc).keeps, (hclean c hc).same⟩
    | @broken before last _ _ hclean _ hsame hcalls =>
        refine ⟨before ++ [last], [.close d, .close s.socket.fd, .unlink s.pathForReading], ?_,
          fun c hc => ?_, by simp [LocalCall.transfer]⟩
        · rw [destroy_calls, hcalls]
          simp
        · rcases List.mem_append.mp hc with hearlier | hnew
          · exact ⟨(hclean c hearlier).keeps, (hclean c hearlier).same⟩
          · obtain rfl := List.mem_singleton.mp hnew
            exact hsame
  obtain ⟨before, after, hcalls, hbefore, hafter⟩ := hsplit
  rw [hcalls]
  refine ⟨fun c hc fd hfd => ?_, List.pairwise_append.mpr ⟨?_, ?_, ?_⟩⟩
  · rcases List.mem_append.mp hc with hearlier | hlater
    · exact (hbefore c hearlier).2 fd hfd
    · cases hfd.symm.trans (hafter c hlater)
  · refine List.pairwise_of_forall_mem_list fun earlier hearlier later _ hclosed => ?_
    exact absurd (hbefore earlier hearlier).1 hclosed
  · exact List.pairwise_of_forall_mem_list fun _ _ later hlater _ => hafter later hlater
  · exact fun _ _ later hlater _ => hafter later hlater

/-- The socket has no descriptor any more, or never had one. -/
theorem form_zero_iff (h : LocalForm d s) :
    s.socket.fd = 0 ↔ d ≤ 0 ∨ s.calls.any LocalCall.breaks = true := by
  cases h with
  | opened hpos hfd hclean =>
      rw [(clean_spec hclean).2, hfd]
      simp
      omega
  | @broken before last hpos hfd hclean hlast hsame hcalls =>
      simp [hfd, hcalls, hlast]
  | unopened hnone hfd hclean => simp [hfd, hnone]

/-- A local socket over any reads and writes of its worker and its destructor, whatever the system
answers. It closes its descriptor exactly once, transfers bytes on no other, and on none behind a
close. If `socket` fails, if the descriptor cannot be bound, or if a read fails although something
is there, then the destructor closes the descriptor 0 too, and only then. From such a failure on
every read and write returns −1. -/
theorem local_descriptors_closed (pathInput pathOutput : String) (answers : OpenAnswers)
    (first later : List LocalOp) :
    let s := (callAll first (construct pathInput pathOutput answers)).2
    let calls := s.destroy.calls
    (calls.filterMap LocalCall.closed =
        if answers.socket < 0 then [0]
        else if s.calls.any LocalCall.breaks then [answers.socket, 0] else [answers.socket]) ∧
      (∀ c ∈ calls, ∀ fd, c.transfer = some fd → fd = answers.socket ∧ 0 < fd) ∧
      (calls.Pairwise fun earlier later => earlier.closed ≠ none → later.transfer = none) ∧
      (answers.socket ≤ 0 ∨ s.calls.any LocalCall.breaks = true →
        callAll later s = (List.replicate later.length (-1), s)) := by
  intro s calls
  have hform : LocalForm answers.socket s :=
    callAll_form (construct_form pathInput pathOutput answers) first
  obtain ⟨hsame, hbehind⟩ := transfers_destroy hform
  exact ⟨closed_destroy hform, hsame, hbehind, fun hzero =>
    callAll_of_zero ((form_zero_iff hform).mpr hzero) later⟩

end LocalLife

end Shovel.Local
