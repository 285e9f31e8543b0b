import LayoutCompiler.Digest
/-!
# Identifiers

Identifiers of the form `xxx-xx-xxx`, drawn from a source that depends on nothing but its seed:
the n-th one is cut from the digest of the seed and `n`.
-/

namespace LayoutCompiler

/-- A source of identifiers, and how many have been drawn. -/
structure IdSource where
  seed : String
  drawn : Nat := 0
deriving Repr, DecidableEq

namespace IdSource

/-- The identifier at a position, counted from one. -/
def nth (seed : String) (position : Nat) : String :=
  let digits := Digest.hex (Digest.md5 (seed ++ ":" ++ toString position).toUTF8.toList)
  String.ofList (digits.take 3 ++ '-' :: (digits.drop 3).take 2 ++ '-' :: (digits.drop 5).take 3)

/-- The next identifier, and the source without it. -/
def draw (s : IdSource) : String × IdSource :=
  (IdSource.nth s.seed (s.drawn + 1), { s with drawn := s.drawn + 1 })

/-- The first identifiers of a seed. -/
def first (seed : String) (count : Nat) : List String :=
  (List.range count).map fun i => IdSource.nth seed (i + 1)

end IdSource

end LayoutCompiler
