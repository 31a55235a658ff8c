import SyslogNg.Foundations.ReadLog

/-!
# Serialization into a buffer

`serialize_buffer_archive_*`, `serialize_read_*` and `serialize_write_*` in `lib/serialize.c`.
-/
namespace SyslogNg.Persist

open Nat

/-- `SerializeBufferArchive`, with the address of its buffer. -/
structure SerializeArchive where
  buff : ℤ
  len : ℕ
  pos : ℕ := 0
  error : Bool := false

namespace SerializeArchive

/-- `serialize_buffer_archive_read_bytes`; nothing is read when the data is too short. -/
def readBytes (sa : SerializeArchive) (m : Image) (buflen : ℕ) :
    Logged (Option (List UInt8 × SerializeArchive)) :=
  if sa.pos + buflen > sa.len then pure none
  else do
    let bytes ← m.get (sa.buff + sa.pos) buflen
    pure (some (bytes, { sa with pos := sa.pos + buflen }))

def readUint32 (sa : SerializeArchive) (m : Image) : Logged (Option (ℕ × SerializeArchive)) := do
  let result ← sa.readBytes m 4
  pure (result.map fun read => (ofBe read.1, read.2))

/-- `serialize_read_cstring`: the bytes that were stored, of which a C string is what stands
before the first zero. -/
def readCstring (sa : SerializeArchive) (m : Image) :
    Logged (Option (List UInt8 × SerializeArchive)) := do
  match ← sa.readUint32 m with
  | none => pure none
  | some (len, sa) => sa.readBytes m len

section Read

variable {sa : SerializeArchive} {m : Image} {len : ℕ}

theorem readBytes_of_gt (h : sa.pos + len > sa.len) : sa.readBytes m len = ⟨none, []⟩ := if_pos h

theorem readBytes_of_le (h : sa.pos + len ≤ sa.len) : sa.readBytes m len =
    ⟨some (m.slice (sa.buff + sa.pos) len, { sa with pos := sa.pos + len }),
      [(sa.buff + sa.pos, len)]⟩ := if_neg (by omega)

theorem readUint32_of_gt (h : sa.pos + 4 > sa.len) : sa.readUint32 m = ⟨none, []⟩ := by
  rw [readUint32, readBytes_of_gt h]
  rfl

theorem readUint32_of_le (h : sa.pos + 4 ≤ sa.len) : sa.readUint32 m =
    ⟨some (m.read32 (sa.buff + sa.pos), { sa with pos := sa.pos + 4 }),
      [(sa.buff + sa.pos, 4)]⟩ := by
  rw [readUint32, readBytes_of_le h]
  rfl

theorem readCstring_of_gt (h : sa.pos + 4 > sa.len) : sa.readCstring m = ⟨none, []⟩ := by
  unfold readCstring
  rw [readUint32_of_gt h]
  rfl

theorem readCstring_of_name_gt (h : sa.pos + 4 ≤ sa.len)
    (hn : sa.pos + 4 + m.read32 (sa.buff + sa.pos) > sa.len) :
    sa.readCstring m = ⟨none, [(sa.buff + sa.pos, 4)]⟩ := by
  have hb : readBytes { sa with pos := sa.pos + 4 } m _ = _ := readBytes_of_gt hn
  unfold readCstring
  rw [readUint32_of_le h]
  simp only [bind, hb, List.append_nil]

theorem readCstring_of_le (h : sa.pos + 4 + m.read32 (sa.buff + sa.pos) ≤ sa.len) :
    sa.readCstring m = ⟨some (m.slice (sa.buff + sa.pos + 4) (m.read32 (sa.buff + sa.pos)),
        { sa with pos := sa.pos + 4 + m.read32 (sa.buff + sa.pos) }),
        [(sa.buff + sa.pos, 4), (sa.buff + sa.pos + 4, m.read32 (sa.buff + sa.pos))]⟩ := by
  have hb : readBytes { sa with pos := sa.pos + 4 } m _ = _ := readBytes_of_le h
  unfold readCstring
  rw [readUint32_of_le (by omega)]
  simp only [bind, hb, cast_add, ← add_assoc]
  rfl

end Read

def writeBytes (sa : SerializeArchive) (m : Image) (bytes : List UInt8) :
    SerializeArchive × Image :=
  if sa.error then (sa, m)
  else if sa.pos + bytes.length > sa.len then ({ sa with error := true }, m)
  else ({ sa with pos := sa.pos + bytes.length }, m.write (sa.buff + sa.pos) bytes)

def writeUint32 (sa : SerializeArchive) (m : Image) (value : ℕ) : SerializeArchive × Image :=
  sa.writeBytes m (be32 (value % 2 ^ 32))

def writeCstring (sa : SerializeArchive) (m : Image) (str : List UInt8) :
    SerializeArchive × Image :=
  let sized := sa.writeUint32 m str.length
  if str.length = 0 then sized else sized.1.writeBytes sized.2 str

section Write

variable {sa : SerializeArchive} {m : Image} {bytes : List UInt8} {value : ℕ}

theorem writeBytes_of_le (herror : sa.error = false) (h : sa.pos + bytes.length ≤ sa.len) :
    sa.writeBytes m bytes =
      ({ sa with pos := sa.pos + bytes.length }, m.write (sa.buff + sa.pos) bytes) := by
  rw [writeBytes, herror, if_neg Bool.false_ne_true, if_neg (by omega)]

theorem writeBytes_of_gt (h : sa.pos + bytes.length > sa.len) :
    (sa.writeBytes m bytes).1.error = true := by
  unfold writeBytes
  by_cases herror : sa.error = true
  · rw [if_pos herror]
    exact herror
  · rw [if_neg herror, if_pos h]

theorem writeBytes_of_error (herror : sa.error = true) : sa.writeBytes m bytes = (sa, m) :=
  if_pos herror

section

variable (herror : sa.error = false)
include herror

theorem writeUint32_of_le (h : sa.pos + 4 ≤ sa.len) (hv : value < 2 ^ 32) : sa.writeUint32 m value =
      ({ sa with pos := sa.pos + 4 }, m.write (sa.buff + sa.pos) (be32 value)) := by
  rw [writeUint32, mod_eq_of_lt hv]
  exact writeBytes_of_le herror h

theorem writeCstring_of_le (h : sa.pos + 4 + bytes.length ≤ sa.len)
    (hne : bytes.length ≠ 0) (hl : bytes.length < 2 ^ 32) : sa.writeCstring m bytes =
      ({ sa with pos := sa.pos + 4 + bytes.length },
        (m.write (sa.buff + sa.pos) (be32 bytes.length)).write (sa.buff + sa.pos + 4) bytes) := by
  have hb : writeBytes { sa with pos := sa.pos + 4 }
      (m.write (sa.buff + sa.pos) (be32 bytes.length)) bytes = _ := writeBytes_of_le herror h
  unfold writeCstring
  rw [writeUint32_of_le herror (by omega) hl, if_neg hne]
  simp only [hb, cast_add, cast_ofNat, add_assoc]

theorem writeCstring_nil (h : sa.pos + 4 ≤ sa.len) : sa.writeCstring m [] =
      ({ sa with pos := sa.pos + 4 }, m.write (sa.buff + sa.pos) (be32 0)) := by
  exact writeUint32_of_le herror h (by norm_num)

theorem writeCstring_of_gt (h : sa.pos + 4 + bytes.length > sa.len)
    (hne : bytes.length ≠ 0) (hl : bytes.length < 2 ^ 32) :
    (sa.writeCstring m bytes).1.error = true := by
  unfold writeCstring
  rw [if_neg hne]
  by_cases hft : sa.pos + 4 ≤ sa.len
  · rw [writeUint32_of_le herror hft hl]
    exact writeBytes_of_gt h
  · have hf : (sa.writeUint32 m bytes.length).1.error = true :=
      writeBytes_of_gt (not_le.mp hft)
    rw [writeBytes_of_error hf]
    exact hf

end

/-- Nothing outside of the buffer was written. -/
structure Confined (sa : SerializeArchive) (m : Image) (written : SerializeArchive × Image) :
    Prop where
  buff : written.1.buff = sa.buff
  len : written.1.len = sa.len
  pos : written.1.pos ≤ written.1.len
  map : ∀ i, ¬(sa.buff ≤ i ∧ i < sa.buff + sa.len) → written.2 i = m i

theorem Confined.trans {first second : SerializeArchive × Image} (h : Confined sa m first)
    (h' : Confined first.1 first.2 second) : Confined sa m second where
  buff := h'.buff.trans h.buff
  len := h'.len.trans h.len
  pos := h'.pos
  map := by
    intro i hi
    rw [h'.map i (by rwa [h.buff, h.len]), h.map i hi]

theorem writeBytes_confined (hp : sa.pos ≤ sa.len) : Confined sa m (sa.writeBytes m bytes) := by
  unfold writeBytes
  split_ifs
  · exact ⟨rfl, rfl, hp, fun _ _ => rfl⟩
  · exact ⟨rfl, rfl, hp, fun _ _ => rfl⟩
  · refine ⟨rfl, rfl, by dsimp only; omega, fun i hi => ?_⟩
    apply Image.write_of_not_mem
    omega

theorem writeCstring_confined (hp : sa.pos ≤ sa.len) :
    Confined sa m (sa.writeCstring m bytes) := by
  have hl : Confined sa m (sa.writeUint32 m bytes.length) := writeBytes_confined hp
  unfold writeCstring
  split_ifs
  · exact hl
  · exact hl.trans (writeBytes_confined hl.pos)

end Write

end SerializeArchive
end SyslogNg.Persist
