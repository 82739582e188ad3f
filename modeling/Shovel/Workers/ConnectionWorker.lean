import Shovel.Containers.QueueBase
import Shovel.Containers.SizedArray

/-!
# What the two threads of a worker share

`ConnectionWorker::run` starts a reading and a writing thread. They share three
flags, each of which changes at most once while the threads run, and each
thread has a local array of 65535 bytes.
-/

namespace Shovel.Workers

open Containers

/-- `connection_worker_arr_size`. -/
def connectionWorkerArrSize : Nat := 65535

/-- `m_read_thread_alive`, `m_write_thread_alive` and `m_stop_asked`. -/
structure WorkerFlags where
  readThreadAlive : Bool
  writeThreadAlive : Bool
  stopAsked : Bool
  deriving DecidableEq, Repr

/-- `ConnectionWorker::run`. -/
def WorkerFlags.run : WorkerFlags := ⟨true, true, false⟩

/-- The flags as they can be some time later: a stop stays asked for, and a dead thread stays
dead. -/
structure WorkerFlags.Later (before after : WorkerFlags) : Prop where
  stop : before.stopAsked = true → after.stopAsked = true
  readDead : before.readThreadAlive = false → after.readThreadAlive = false
  writeDead : before.writeThreadAlive = false → after.writeThreadAlive = false

namespace WorkerFlags

theorem later_refl (flags : WorkerFlags) : flags.Later flags := ⟨id, id, id⟩

theorem later_stop (flags : WorkerFlags) : flags.Later { flags with stopAsked := true } :=
  ⟨fun _ => rfl, id, id⟩

theorem later_readDead (flags : WorkerFlags) :
    flags.Later { flags with readThreadAlive := false } :=
  ⟨id, fun _ => rfl, id⟩

theorem later_writeDead (flags : WorkerFlags) :
    flags.Later { flags with writeThreadAlive := false } :=
  ⟨id, id, fun _ => rfl⟩

end WorkerFlags

/-- The arguments `(bytes.data(), (uint16_t)bytes.size())` of a `put`. -/
def castMessage (bytes : List UInt8) : Message :=
  ⟨bytes.take (bytes.length % 2 ^ 16), by
    rw [List.length_take]
    exact Nat.lt_of_le_of_lt (Nat.min_le_left _ _) (Nat.mod_lt _ (by decide))⟩

/-- The cast to 16 bits loses nothing of at most 65535 bytes. -/
theorem castMessage_bytes {bytes : List UInt8} (h : bytes.length < 2 ^ 16) :
    (castMessage bytes).bytes = bytes := by
  show bytes.take (bytes.length % 2 ^ 16) = bytes
  rw [Nat.mod_eq_of_lt h, List.take_length]

/-- A message fits into the array of a thread, so reading the first message reads it whole. -/
theorem look_whole {a : MessageFifo} {m : Message} (h : a.fifo.items.head? = some m) :
    a.look connectionWorkerArrSize = (⟨m.size, m.bytes⟩, .ok) := by
  have hfits : m.size ≤ 65535 := Nat.le_of_lt_succ m.fits
  rw [MessageFifo.look_some _ h, connectionWorkerArrSize, m.take_max, Nat.min_eq_right hfits]

end Shovel.Workers
