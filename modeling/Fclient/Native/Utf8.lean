import Fclient.Jni

/-!
# Modified UTF-8

The encoding of Java strings in the JNI string functions: each UTF-16 code unit on its own takes one
to three bytes, and `U+0000` takes two, so that no byte of an encoded string is zero.
-/

namespace Fclient.Native

def encodeUnit (c : JChar) : List UInt8 :=
  if c ≠ 0 ∧ c < 0x80 then [c.toUInt8]
  else if c < 0x800 then
    [(0xC0 : UInt8) ||| (c >>> 6).toUInt8, (0x80 : UInt8) ||| (c &&& 0x3F).toUInt8]
  else [(0xE0 : UInt8) ||| (c >>> 12).toUInt8, (0x80 : UInt8) ||| ((c >>> 6) &&& 0x3F).toUInt8,
    (0x80 : UInt8) ||| (c &&& 0x3F).toUInt8]

/-- The bytes `GetStringUTFChars` returns, without the terminating zero. -/
def encodeUtf (s : JString) : List UInt8 := s.flatMap encodeUnit

def decodeUtf : List UInt8 → JString
  | [] => []
  | b :: rest =>
    if b < 0x80 then b.toUInt16 :: decodeUtf rest
    else match rest with
      | [] => []
      | b₂ :: rest =>
        if b < 0xE0 then
          ((b &&& 0x1F).toUInt16 <<< 6 ||| (b₂ &&& 0x3F).toUInt16) :: decodeUtf rest
        else match rest with
          | [] => []
          | b₃ :: rest =>
            ((b &&& 0x0F).toUInt16 <<< 12 ||| (b₂ &&& 0x3F).toUInt16 <<< 6 |||
              (b₃ &&& 0x3F).toUInt16) :: decodeUtf rest

def cString (buf : List UInt8) : List UInt8 := buf.takeWhile (· ≠ 0)

def newStringUTF (buf : List UInt8) : JString := decodeUtf (cString buf)

/-- Below `0x80` a byte is its own code unit. -/
theorem decodeUtf_ascii {l : List UInt8} (h : ∀ b ∈ l, b < 0x80) :
    decodeUtf l = l.map UInt8.toUInt16 := by
  induction l with
  | nil => rfl
  | cons b l ih =>
    have ih' := ih fun c hc => h c (List.mem_cons_of_mem _ hc)
    unfold decodeUtf
    rw [if_pos (h b List.mem_cons_self), ih', List.map_cons]

theorem newStringUTF_ascii {l : List UInt8} (h : ∀ b ∈ l, b ≠ 0 ∧ b < 0x80) :
    newStringUTF (l ++ [0]) = l.map UInt8.toUInt16 := by
  have hc : cString (l ++ [0]) = l := by
    unfold cString
    rw [List.takeWhile_append_of_pos fun b hb => by simpa using (h b hb).1]
    simp
  rw [newStringUTF, hc, decodeUtf_ascii fun b hb => (h b hb).2]

end Fclient.Native
