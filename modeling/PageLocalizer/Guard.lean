-- The flag that is up while an engine writes to the page, so that it does not take its own writes
-- for somebody else's.
namespace PageLocalizer

structure Guard where
  active : Bool
  deriving Repr, DecidableEq

-- A time during which the flag is up. It remembers the flag as it was before.
structure GuardScope where
  previous : Bool
  deriving Repr, DecidableEq

namespace Guard

def idle : Guard := { active := false }

def acquire (g : Guard) : GuardScope × Guard := ({ previous := g.active }, { active := true })

end Guard

-- The flag once a scope ends: as the scope found it.
def GuardScope.finish (scope : GuardScope) : Guard := { active := scope.previous }

end PageLocalizer
