import Terse.Symbol

/-! Names in the emitted program. -/
namespace Terse

/-- What the library is called in the target language. -/
def intrinsicNames : List (String × String) := [
  ("pi", "Math.PI"), ("sin", "Math.sin"), ("cos", "Math.cos"), ("exp", "Math.exp"),
  ("ln", "Math.log"), ("hypot", "Math.hypot"), ("log", "console.log")]

/-- The emitted name of a symbol: its number keeps it apart from all others. A symbol that claims to
be of the library and is not has none. -/
def Symbol.target? (s : Symbol) : Option String :=
  if s.isIntrinsic then intrinsicNames.lookup s.name else some s!"{s.name}_{s.uid}"

/-- The names that a series of fresh names starts with. -/
def freshNames (stem : String) (count : Nat) : List String :=
  (List.range count).map fun i => s!"{stem}{i + 1}"

/-- The counter of the `n`th repetition. -/
def counterName (n : Nat) : String := s!"_i{n}"

end Terse
