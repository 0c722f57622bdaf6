import WasmInspect.Bytes

/-!
# Addresses of logs

The address of a log is a name of a file, or has a scheme in front: `scheme://host/path`. A question mark or a hash sign ends
the path, and a percent sign with two hexadecimal digits stands for a byte of it.
-/

namespace WasmInspect.Cli

/-- The parts of an address. -/
structure Url where
  scheme : String := ""
  host : String := ""
  path : String := ""
  deriving DecidableEq

/-- What can be wrong with an address. -/
inductive UrlError where
  /-- A colon stands at the start. -/
  | noScheme
  /-- A colon stands in the first step of a path, behind what is no scheme. -/
  | colonInPath
  /-- A percent sign without two hexadecimal digits behind it. -/
  | badEscape (text : String)
  deriving DecidableEq

/-- The text of an error in an address. -/
def UrlError.message : UrlError → String
  | noScheme => "missing protocol scheme"
  | colonInPath => "first path segment in URL cannot contain colon"
  | badEscape text => "invalid URL escape \"" ++ text ++ "\""

namespace Url

/-- The value of a hexadecimal digit. -/
def digit? (c : Char) : Option Nat := "0123456789abcdef".toList.idxOf? c.toLower

/-- The bytes of a text in which percent signs stand for bytes. -/
def unescape : List Char → Except UrlError Bytes
  | [] => .ok []
  | '%' :: a :: b :: rest =>
    match digit? a, digit? b with
    | some x, some y => (unescape rest).map (UInt8.ofNat (16 * x + y) :: ·)
    | _, _ => .error (.badEscape (String.ofList ['%', a, b]))
  | c :: rest =>
    if c = '%' then .error (.badEscape (String.ofList (c :: rest)))
    else (unescape rest).map ((String.singleton c).toUTF8.toList ++ ·)

/-- The text of bytes, or of the characters of the same numbers if the bytes are no text. -/
def textOf (b : Bytes) : String := (String.fromUTF8? ⟨b.toArray⟩).getD (String.ofList (b.map fun x => Char.ofNat x.toNat))

/-- A character of a scheme. -/
def isSchemeChar (c : Char) : Bool := c.isAlphanum || c = '+' || c = '-' || c = '.'

/-- The scheme in front of a text, which starts with a letter, and what follows the colon behind it. -/
def splitScheme (text : List Char) : List Char × List Char :=
  let scheme := text.takeWhile isSchemeChar
  match scheme, text.drop scheme.length with
  | c :: _, ':' :: rest => if c.isAlpha then (scheme, rest) else ([], text)
  | _, _ => ([], text)

/-- The host and the path behind a scheme. What a scheme stands before must start with a slash to be a path. -/
def splitHost (scheme rest : List Char) : Except UrlError (List Char × List Char) :=
  match rest with
  | '/' :: '/' :: more => .ok (more.takeWhile (· ≠ '/'), more.dropWhile (· ≠ '/'))
  | '/' :: _ => .ok ([], rest)
  | _ =>
    if !scheme.isEmpty then .ok ([], [])
    else if (rest.takeWhile (· ≠ '/')).contains ':' then .error .colonInPath
    else .ok ([], rest)

/-- Reads an address. -/
def ofText (text : String) : Except UrlError Url := do
  let (scheme, rest) := splitScheme text.toList
  if scheme.isEmpty && rest.head? = some ':' then throw .noScheme
  let (host, path) ← splitHost scheme (rest.takeWhile fun c => c ≠ '?' && c ≠ '#')
  return { scheme := (String.ofList scheme).toLower, host := String.ofList host, path := textOf (← unescape path) }

end Url

end WasmInspect.Cli
