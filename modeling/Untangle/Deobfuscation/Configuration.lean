import Untangle.Json.Value
import Untangle.Rewrite.Pass

/-!
# Configurations

A configuration selects passes, one switch for each. It is written in JSON as an object of
switches, or as an array of them in a fixed order. A switch is a boolean or a word for one, and a
switch that is not mentioned is off.
-/

namespace Untangle

structure Configuration where
  unpackArrays : Bool := false
  decodeStrings : Bool := false
  removeProxyFunctions : Bool := false
  stringProxyFunctions : Bool := false
  simplifyExpressions : Bool := false
  removeDeadCode : Bool := false
  deriving Repr, DecidableEq, Inhabited

namespace Configuration

def none : Configuration :=
  {}

def all : Configuration :=
  ⟨true, true, true, true, true, true⟩

def isEnabled (c : Configuration) : PassKind → Bool
  | .proxyFunctions => c.removeProxyFunctions
  | .stringProxies => c.stringProxyFunctions
  | .strings => c.decodeStrings
  | .expressions => c.simplifyExpressions
  | .arrays => c.unpackArrays
  | .deadCode => c.removeDeadCode

def set (c : Configuration) (k : PassKind) (enabled : Bool) : Configuration :=
  match k with
  | .proxyFunctions => { c with removeProxyFunctions := enabled }
  | .stringProxies => { c with stringProxyFunctions := enabled }
  | .strings => { c with decodeStrings := enabled }
  | .expressions => { c with simplifyExpressions := enabled }
  | .arrays => { c with unpackArrays := enabled }
  | .deadCode => { c with removeDeadCode := enabled }

/-- The selected passes in the order in which they run. -/
def passes (c : Configuration) : List PassKind :=
  PassKind.all.filter c.isEnabled

def isEmpty (c : Configuration) : Bool :=
  c.passes.isEmpty

def union (c d : Configuration) : Configuration :=
  d.passes.foldl (fun merged k => merged.set k true) c

end Configuration

/-!
## Errors of settings
-/

inductive SettingsError
  | malformed
  | notStructured
  | unreadableKey
  | duplicate (key : String)
  | tooManyItems
  /-- Neither a boolean nor a text. -/
  | notSwitch
  | unknownWord (found : String)
  deriving Repr, DecidableEq

namespace SettingsError

def message : SettingsError → String
  | malformed => "malformed JSON"
  | notStructured => "expected an object or an array"
  | unreadableKey => "unreadable key"
  | duplicate key => "duplicate key " ++ key
  | tooManyItems => "too many items"
  | notSwitch => "data did not match any variant of untagged enum Flag"
  | unknownWord found => "expected a boolean, found \"" ++ found ++ "\""

end SettingsError

namespace Configuration

/-!
## Switches
-/

/-- A word without the blanks around it, in lower case as far as it is ASCII. -/
def normalizeWord (word : String) : String :=
  String.ofList ((Text.trim Text.isWhiteSpace word.toList).map Char.toLower)

def switchOfWord (word : String) : Except SettingsError Bool :=
  let normal := normalizeWord word
  if ["true", "yes", "1", "on"].contains normal then .ok true
  else if ["false", "no", "0", "off", ""].contains normal then .ok false
  else .error (.unknownWord normal)

def switchOfJson : JsonValue → Except SettingsError Bool
  | .boolean value => .ok value
  | .text (some word) => switchOfWord word
  | _ => .error .notSwitch

/-!
## Objects and arrays
-/

/-- Keys that name no pass are ignored. -/
def ofMembers : List (Option String × JsonValue) → List PassKind → Configuration →
    Except SettingsError Configuration
  | [], _, c => .ok c
  | (Option.none, _) :: _, _, _ => .error .unreadableKey
  | (some key, value) :: rest, seen, c =>
      match PassKind.ofName? key with
      | Option.none => ofMembers rest seen c
      | some kind =>
          if seen.contains kind then .error (.duplicate key)
          else do ofMembers rest (kind :: seen) (c.set kind (← switchOfJson value))

/-- The order of switches in an array. -/
def itemOrder : List PassKind :=
  [.arrays, .strings, .proxyFunctions, .stringProxies, .expressions, .deadCode]

def ofItems : List JsonValue → List PassKind → Configuration → Except SettingsError Configuration
  | [], _, c => .ok c
  | _ :: _, [], _ => .error .tooManyItems
  | value :: rest, kind :: kinds, c => do ofItems rest kinds (c.set kind (← switchOfJson value))

def ofJson : JsonValue → Except SettingsError Configuration
  | .object members => ofMembers members [] Configuration.none
  | .array items => ofItems items itemOrder Configuration.none
  | _ => .error .notStructured

/-- The configuration that a text describes. -/
def parse (source : String) : Except SettingsError Configuration :=
  match JsonValue.parse? source with
  | some value => ofJson value
  | Option.none => .error .malformed

end Configuration
end Untangle
