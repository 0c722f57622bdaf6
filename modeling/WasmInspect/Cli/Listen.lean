/-!
# Addresses to listen at

An address is a host and a service with a colon between them. A host that has colons itself stands in square brackets. The service
is a number of sixteen bits, or nothing.
-/

namespace WasmInspect.Cli

/-- What can be wrong with an address to listen at. -/
inductive ListenError where
  | missingService
  | tooManyColons
  /-- The bracket before the host is never closed. -/
  | missingBracket
  /-- A bracket where none belongs. -/
  | strayBracket (bracket : Char)
  /-- The service is not a number of sixteen bits. -/
  | invalidService (service : String)
  /-- The service is not a number. -/
  | unknownService (service : String)
  deriving DecidableEq

/-- The text of an error in an address. -/
def ListenError.message (address : String) : ListenError → String
  | missingService => "address " ++ address ++ ": missing port in address"
  | tooManyColons => "address " ++ address ++ ": too many colons in address"
  | missingBracket => "address " ++ address ++ ": missing ']' in address"
  | strayBracket b => "address " ++ address ++ ": unexpected '" ++ String.singleton b ++ "' in address"
  | invalidService service => "address " ++ service ++ ": invalid port"
  | unknownService service => "lookup tcp/" ++ service ++ ": unknown port"

namespace Listen

/-- The host and what follows it: the part in brackets, or all up to the last colon. -/
def splitHost (address : List Char) : Except ListenError (List Char × List Char) :=
  match address with
  | '[' :: inner =>
    if inner.contains ']' then .ok (inner.takeWhile (· ≠ ']'), (inner.dropWhile (· ≠ ']')).drop 1)
    else .error .missingBracket
  | _ =>
    let serviceLength := (address.reverse.takeWhile (· ≠ ':')).length
    .ok (address.take (address.length - serviceLength - 1), address.drop (address.length - serviceLength - 1))

/-- The service of an address. -/
def service (address : List Char) : Except ListenError (List Char) := do
  if !address.contains ':' then throw .missingService
  let bracketed := address.head? = some '['
  let (host, rest) ← splitHost address
  match rest with
  | ':' :: service =>
    if service.contains ':' || (!bracketed && host.contains ':') then throw .tooManyColons
    if host.contains '[' || service.contains '[' then throw (.strayBracket '[')
    if host.contains ']' || service.contains ']' then throw (.strayBracket ']')
    return service
  | _ => throw .missingService

/-- Refuses a service that is not a number of sixteen bits. A sign may stand before it, but a service is not negative. -/
def checkService (service : List Char) : Except ListenError Unit :=
  let digits := match service with
    | '+' :: rest => rest
    | '-' :: rest => rest
    | _ => service
  let value := digits.foldl (fun n c => 10 * n + (c.toNat - '0'.toNat)) 0
  if !digits.all Char.isDigit then .error (.unknownService (String.ofList service))
  else if 0xffff < value || (service.head? = some '-' && 0 < value) then .error (.invalidService (String.ofList service))
  else .ok ()

/-- Refuses an address that is not one of a host and a service. -/
def check (address : String) : Except ListenError Unit := do checkService (← service address.toList)

end Listen

end WasmInspect.Cli
