import AtomicStyles.Digest.Xxh3

/-!
# The hash of a name or value

Open-ended values and custom property names enter class tokens by a 32-bit hash
of their text. It depends on the text alone, so independent compilations agree.
-/

namespace AtomicStyles

/-- The two halves of the XXH3 digest of the text's UTF-8 form, combined by
exclusive or. -/
def hash32 (text : String) : UInt32 :=
  let h := Xxh3.digest text.toUTF8
  (h ^^^ (h >>> 32)).toUInt32

end AtomicStyles
