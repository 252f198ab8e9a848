/-! The variables that a program is started with. -/
namespace CircuitNotes

/-- Names and values; of one name the first counts. -/
structure Environment where
  values : List (String × String) := []
  deriving DecidableEq, Repr

namespace Environment

/-- The value of a variable; one that is empty counts as missing. -/
def value? (env : Environment) (name : String) : Option String :=
  (env.values.lookup name).filter (!·.isEmpty)

def orElse (env : Environment) (more : List (String × String)) : Environment :=
  ⟨env.values ++ more⟩

theorem lookup_orElse (env : Environment) (more : List (String × String)) (name : String) :
    (env.orElse more).values.lookup name =
      (env.values.lookup name).or (more.lookup name) := by
  simp [orElse,List.lookup_append]

end Environment
end CircuitNotes
