import DeferredQuery.Value.Basic

/-!
# Bindings

Names with values, for the placeholders of one execution and for the parameters of lambdas. Of two
bindings of one name the first counts.
-/

namespace DeferredQuery

abbrev Bindings := List (Named Value)

namespace Bindings

def add (b : Bindings) (name : String) (v : Value) : Bindings := b ++ [⟨name, v⟩]

def get? (b : Bindings) (name : String) : Option Value := Named.find? name b

def names (b : Bindings) : List String := b.map Named.name

end Bindings

end DeferredQuery
