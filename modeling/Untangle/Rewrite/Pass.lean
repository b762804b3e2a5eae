import Untangle.Rewrite.ArrayReads
import Untangle.Rewrite.Constants
import Untangle.Rewrite.DeadCode
import Untangle.Rewrite.ProxyFunctions
import Untangle.Rewrite.StringProxies
import Untangle.Rewrite.Strings

/-!
# Passes

The rewrites under the names by which they are selected.
-/

namespace Untangle

structure Pass where
  name : String
  run : (root : Slot) → Rewrite Bool

inductive PassKind
  | proxyFunctions
  | stringProxies
  | strings
  | expressions
  | arrays
  | deadCode
  deriving Repr, DecidableEq, Inhabited

namespace PassKind

/-- All passes in the order in which they run. -/
def all : List PassKind :=
  [proxyFunctions, stringProxies, strings, expressions, arrays, deadCode]

def name : PassKind → String
  | proxyFunctions => "removeProxyFunctions"
  | stringProxies => "stringProxyFunctions"
  | strings => "decodeStrings"
  | expressions => "simplifyExpressions"
  | arrays => "unpackArrays"
  | deadCode => "removeDeadCode"

def ofName? (text : String) : Option PassKind :=
  all.find? fun k => k.name == text

def rewrite : PassKind → Slot → Rewrite Bool
  | proxyFunctions => Rewrite.removeProxyFunctions
  | stringProxies => Rewrite.inlineStatementProxies
  | strings => Rewrite.decodeStrings
  | expressions => Rewrite.simplifyExpressions
  | arrays => Rewrite.unpackArrays
  | deadCode => Rewrite.removeDeadCode

def pass (k : PassKind) : Pass :=
  ⟨k.name, k.rewrite⟩

end PassKind

/-- Run a rewrite: the answer, and the forest it leaves behind. -/
def Rewrite.apply (act : Rewrite Bool) (f : Forest) : Except RewriteError Bool × Forest :=
  act.run.run f

end Untangle
