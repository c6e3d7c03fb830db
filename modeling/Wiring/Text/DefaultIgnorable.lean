import Wiring.Text.RangeTable

/-!
# Characters that are shown as nothing

Characters without an appearance of their own unless it is asked for: soft hyphens, joiners,
fillers that stand for an absent letter, variation selectors and controls of the text direction.
Some of them, the fillers among others, are letters by their category.
-/

namespace Wiring.Text

/-- The code points that are shown as nothing. -/
def defaultIgnorableRanges : RangeTable :=
  [(0xad, 0xad), (0x34f, 0x34f), (0x61c, 0x61c), (0x115f, 0x1160), (0x17b4, 0x17b5),
    (0x180b, 0x180f), (0x200b, 0x200f), (0x202a, 0x202e), (0x2060, 0x206f), (0x3164, 0x3164),
    (0xfe00, 0xfe0f), (0xfeff, 0xfeff), (0xffa0, 0xffa0), (0xfff0, 0xfff8), (0x1bca0, 0x1bca3),
    (0x1d173, 0x1d17a), (0xe0000, 0xe0fff)]

/-- Characters that are shown as nothing. -/
def isDefaultIgnorable (c : Char) : Bool := defaultIgnorableRanges.contains c.toNat

end Wiring.Text
