import Mathlib.Data.List.Basic

/-!
# Arrays with a data size

`SizedArray<uint8_t, Nm>` is a `std::array` of `Nm` bytes together with the
number of bytes in use. The structure carries that the array has its declared
length and that no more bytes are in use than there are.
-/

namespace Shovel.Containers

/-- `SizedArray<uint8_t, Nm>`. -/
structure SizedArray (Nm : Nat) where
  data : List UInt8
  dataSize : Nat
  length_data : data.length = Nm
  fits : dataSize ≤ Nm

namespace SizedArray

variable {Nm : Nat}

/-- A value-initialised array with no byte in use. -/
def new (Nm : Nat) : SizedArray Nm :=
  ⟨List.replicate Nm 0, 0, List.length_replicate, Nat.zero_le Nm⟩

/-- `resize`. -/
def resize (b : SizedArray Nm) (size : Nat) : SizedArray Nm :=
  if h : size < Nm then { b with dataSize := size, fits := Nat.le_of_lt h }
  else { b with dataSize := Nm, fits := Nat.le_refl Nm }

/-- `clear`: the bytes stay, none of them is in use. -/
def clear (b : SizedArray Nm) : SizedArray Nm := { b with dataSize := 0, fits := Nat.zero_le Nm }

/-- A copy of at most `Nm` bytes to `data()`. -/
def store (b : SizedArray Nm) (bytes : List UInt8) : SizedArray Nm :=
  { b with
    data := bytes.take Nm ++ b.data.drop bytes.length
    length_data := by
      rw [List.length_append, List.length_take, List.length_drop, b.length_data]
      omega }

/-- The bytes in use: `data_size()` bytes from `data()` on. -/
def content (b : SizedArray Nm) : List UInt8 := b.data.take b.dataSize

@[simp] theorem length_content (b : SizedArray Nm) : b.content.length = b.dataSize := by
  rw [content, List.length_take, b.length_data]
  exact Nat.min_eq_left b.fits

@[simp] theorem resize_dataSize (b : SizedArray Nm) (size : Nat) :
    (b.resize size).dataSize = min size Nm := by
  unfold resize
  split <;> simp only <;> omega

/-- Bytes that are stored and counted are the content. -/
theorem content_store_resize (b : SizedArray Nm) {bytes : List UInt8} (h : bytes.length ≤ Nm) :
    ((b.store bytes).resize bytes.length).content = bytes := by
  have hsize := (b.store bytes).resize_dataSize bytes.length
  have hdata : ((b.store bytes).resize bytes.length).data = (b.store bytes).data := by
    unfold resize
    split <;> rfl
  rw [content, hsize, hdata, Nat.min_eq_left h]
  simp [store, List.take_of_length_le h]

end SizedArray

end Shovel.Containers
