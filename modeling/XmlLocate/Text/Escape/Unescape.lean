import XmlLocate.Text.Digits
import XmlLocate.Text.Escape

/-!
# Escaped text, read back
-/

namespace XmlLocate

end XmlLocate
