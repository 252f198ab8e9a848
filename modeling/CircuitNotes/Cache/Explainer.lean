import CircuitNotes.Cache.Recency
import CircuitNotes.Circuit.Basic
import CircuitNotes.Digest.Sha256

/-! Explaining sources through a cache: a source seen before, which its digest tells, is not
explained again. -/
namespace CircuitNotes

/-- What explaining sources through a cache depends on and leaves behind: the explanations held, by
the digest of their source, and how often a source was explained anew. -/
structure Explainer where
  cache : Recency Explanation
  calls : Nat := 0

namespace Explainer

def explain (e : Explainer) (rule : Text → Explanation) (source : Text) : Explanation × Explainer :=
  match e.cache.get (contentHash source) with
  | (some held,cache) => (held,{ e with cache := cache })
  | (none,cache) =>
    let fresh := rule source
    (fresh,{ cache := cache.put (contentHash source) fresh,calls := e.calls + 1 })

end Explainer
end CircuitNotes
