import WasmInspect.Grammar.Section
import WasmInspect.Instruction.Text
import WasmInspect.Model

/-!
# S-expressions

The text of a model is one parenthesised expression with a form for each export and each function. It is made as a list of
pieces, of which some have a style: mnemonics, names and types. The plain text joins the pieces; a highlight changes the text
of the styled pieces and nothing else.
-/

namespace WasmInspect

/-- What a piece of text is. -/
inductive Style where
  | plain
  | mnemonic
  | name
  | type
  deriving DecidableEq

/-- A piece of text with its style. -/
structure Piece where
  style : Style
  text : String
  deriving DecidableEq

/-- What is done to the text of styled pieces; nothing, unless said otherwise. -/
structure Highlight where
  mnemonic : String → String := id
  name : String → String := id
  type : String → String := id

namespace Highlight

/-- The text of a piece. -/
def apply (h : Highlight) (p : Piece) : String :=
  match p.style with
  | .plain => p.text
  | .mnemonic => h.mnemonic p.text
  | .name => h.name p.text
  | .type => h.type p.text

/-- Puts a text before and a text after a piece. -/
def between (before after text : String) : String := before ++ text ++ after

end Highlight

namespace SExpr

/-- A piece without a style. -/
def plain (text : String) : Piece := ⟨.plain, text⟩

/-- The form of an export: its name in quotes, and the kind and the name of what is exported. -/
def exportForm (e : ExportView) : List Piece :=
  [plain "\n  (export \"", plain e.name, plain "\" (", plain e.kind.name, plain " ", ⟨.name, nameMarker ++ e.name⟩, plain "))"]

/-- A group of types after a keyword; an empty group is left out. -/
def typeGroup (keyword : String) (types : List ValueType) : List Piece :=
  if types.isEmpty then []
  else plain " (" :: plain keyword :: types.flatMap (fun t => [plain " ", ⟨.type, t.name⟩]) ++ [plain ")"]

/-- The form of an instruction on a line of its own. -/
def instructionForm (x : Instruction) : List Piece :=
  [plain "\n    (", ⟨.mnemonic, x.op.name⟩, plain x.tail, plain ")"]

/-- The name of a function after a blank; nothing if it has none. -/
def nameGroup : Option String → List Piece
  | some n => [plain " ", ⟨.name, n⟩]
  | none => []

/-- The form of a function: its name, its signature, and its code. -/
def functionForm (f : FunctionView) : List Piece :=
  plain "\n  (" :: ⟨.mnemonic, "func"⟩ :: nameGroup f.name ++ typeGroup "param" f.params ++ typeGroup "result" f.results ++
    f.code.flatMap instructionForm ++ [plain ")"]

/-- The pieces of a model's text. -/
def pieces (m : Model) : List Piece :=
  plain "(module" :: m.exports.flatMap exportForm ++ m.functions.flatMap functionForm ++ [plain ")\n"]

/-- Adds the highlighted text of a model to a buffer. -/
def append (h : Highlight) (buffer : String) (m : Model) : String :=
  (pieces m).foldl (fun text p => text ++ h.apply p) buffer

/-- The highlighted text of a model. -/
def render (h : Highlight) (m : Model) : String := append h "" m

/-- The plain text of a model. -/
def text (m : Model) : String := render {} m

end SExpr

/-- Reads a module and gives the plain text of its positional model. -/
def disassemble (b : Bytes) : Except Failure String := do
  let m ← (decode b).result.mapError (Failure.within (.part "decode"))
  let model ← (Model.positional m).mapError Failure.fault
  pure (SExpr.text model)

end WasmInspect
