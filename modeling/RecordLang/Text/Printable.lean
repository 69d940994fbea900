import RecordLang.Text.Invisible
import RecordLang.Text.Mark

/-!
# Printable characters

Which characters are shown as themselves in quoted text: those that have a visible form and do not
combine with the character before them.
-/

namespace RecordLang.Text

/-- Some range holds the code point. -/
def inRanges (ranges : List (Nat × Nat)) (n : Nat) : Bool :=
  ranges.any fun r => r.1 ≤ n && n ≤ r.2

/-- Shown as itself in quoted text. -/
def isPrintable (c : Char) : Bool :=
  !inRanges invisibleRanges c.toNat && !inRanges markRanges c.toNat

end RecordLang.Text
