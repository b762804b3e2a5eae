/-!
# Limits

Generated programs nest far deeper than written ones. Every recursive walk has a bound and gives
up beyond it.
-/

namespace Untangle
namespace Limits

/-- Nesting that the grammar accepts. -/
def parseDepth : Nat := 500

/-- Depth to which bindings are collected, and the longest run of binary operators. -/
def treeDepth : Nat := 2500

/-- Depth to which expressions are evaluated. -/
def evaluationDepth : Nat := 500

/-- Rounds of rewriting in one run. -/
def rounds : Nat := 16

/-- Steps outward when a name is looked up. -/
def scopeSteps : Nat := 10000

end Limits
end Untangle
