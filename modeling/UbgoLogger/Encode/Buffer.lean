import UbgoLogger.Encode.Float

namespace UbgoLogger.Buffer
open Foundation.Text

def writeString (b s : Bytes) : Bytes := b ++ s

def writeByte (b : Bytes) (c : Byte) : Bytes := b ++ [c]

def writeInt (b : Bytes) (i : Int64) : Bytes := b ++ formatInt i.toInt

def writeUint (b : Bytes) (u : UInt64) : Bytes := b ++ decimal u.toNat

def writeFloat (b : Bytes) (bits : UInt64) : Bytes := b ++ Float.format bits

def writeBool (b : Bytes) (v : Bool) : Bytes := b ++ if v then ascii "true" else ascii "false"

def writeTimeRFC3339 (b : Bytes) (t : Time) : Bytes := b ++ t.formatRFC3339Nano

def hexDigit (n : Byte) : Byte := if n < 10 then 48 + n else 97 + n - 10

def plain (c : Byte) : Bool := decide (0x20 ≤ c) && decide (c ≠ 0x22) && decide (c ≠ 0x5c)

def escape (c : Byte) : Bytes :=
  if c = 0x22 then [0x5c, 0x22]
  else if c = 0x5c then [0x5c, 0x5c]
  else if c = 0x0a then [0x5c, 0x6e]
  else if c = 0x0d then [0x5c, 0x72]
  else if c = 0x09 then [0x5c, 0x74]
  else [0x5c, 0x75, 0x30, 0x30, hexDigit (c >>> 4), hexDigit (c &&& 0xf)]

-- The loop of writeJSONString: rest is s[i:], and s[start:i] is the run not copied yet.
def jsonLoop (s : Bytes) : Bytes → Nat → Nat → Bytes → Bytes
  | [], _, start, b => b ++ s.drop start
  | c :: rest, i, start, b =>
      if plain c then jsonLoop s rest (i + 1) start b
      else jsonLoop s rest (i + 1) (i + 1) (b ++ (s.drop start).take (i - start) ++ escape c)

def writeJSONString (b s : Bytes) : Bytes := jsonLoop s s 0 0 (b ++ [0x22]) ++ [0x22]

def escapeByte (c : Byte) : Bytes := if plain c then [c] else escape c

theorem jsonLoop_eq (s done rest b : Bytes) (start : Nat) (hs : s = done ++ rest)
    (hstart : start ≤ done.length) :
    jsonLoop s rest done.length start b =
      b ++ done.drop start ++ rest.flatMap escapeByte := by
  -- done is what the index has passed; its part from start on is copied unescaped
  induction rest generalizing done start b with
  | nil => simp [jsonLoop, hs]
  | cons c rest ih =>
    have hrun : (s.drop start).take (done.length - start) = done.drop start := by
      rw [hs, List.drop_append_of_le_length hstart, List.take_left' (by simp)]
    have hs' : s = (done ++ [c]) ++ rest := by simpa using hs
    have hlen : (done ++ [c]).length = done.length + 1 := by simp
    simp only [jsonLoop]
    split
    · rename_i hc
      rw [← hlen, ih (done ++ [c]) b start hs' (by omega)]
      rw [List.drop_append_of_le_length hstart]
      simp [escapeByte, hc]
    · rename_i hc
      rw [← hlen, ih (done ++ [c]) _ _ hs' (le_refl _), hrun]
      simp [escapeByte, hc]

theorem writeJSONString_eq (b s : Bytes) :
    writeJSONString b s = b ++ [0x22] ++ s.flatMap escapeByte ++ [0x22] := by
  have h := jsonLoop_eq s [] s (b ++ [0x22]) 0 rfl (le_refl _)
  simp only [List.length_nil, List.drop_nil, List.append_nil] at h
  rw [writeJSONString, h]

theorem hexDigit_noControl {n : Byte} (h : n.toNat < 16) : (32 : Byte) ≤ hexDigit n := by
  unfold hexDigit
  rw [UInt8.le_iff_toNat_le]
  split <;> simp only [UInt8.toNat_add, UInt8.toNat_sub, UInt8.reduceToNat] <;> omega

theorem escapeByte_noControl (c : Byte) : NoControl (escapeByte c) := by
  unfold escapeByte
  split
  · rename_i h
    simp only [plain, Bool.and_eq_true, decide_eq_true_eq] at h
    simpa using ⟨h.1.1, noControl_nil⟩
  · unfold escape
    repeat' split
    all_goals try decide
    have hhi : (c >>> 4).toNat < 16 := by
      have := c.toNat_lt
      simp only [UInt8.toNat_shiftRight, UInt8.reduceToNat, Nat.shiftRight_eq_div_pow, Nat.reduceMod,
        Nat.reducePow]
      omega
    have hlo : (c &&& 0xf).toNat < 16 := by
      rw [UInt8.toNat_and]
      exact Nat.lt_of_le_of_lt Nat.and_le_right (by decide)
    simp only [noControl_cons, hexDigit_noControl hhi, hexDigit_noControl hlo, true_and]
    decide

theorem writeJSONString_noControl {b : Bytes} (h : NoControl b) (s : Bytes) :
    NoControl (writeJSONString b s) := by
  rw [writeJSONString_eq]
  simp only [noControl_append]
  refine ⟨⟨⟨h, by decide⟩, ?_⟩, by decide⟩
  intro c hc
  obtain ⟨d, -, hd⟩ := List.mem_flatMap.mp hc
  exact escapeByte_noControl d c hd

end UbgoLogger.Buffer

namespace UbgoLogger
open Foundation.Text

-- Encode appends one record to what the buffer holds.
structure Encoder (ρ : Type) where
  encode : Bytes → ρ → Bytes
  appends : ∀ buf r, encode buf r = buf ++ encode [] r

end UbgoLogger
