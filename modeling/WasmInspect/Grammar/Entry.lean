import WasmInspect.Grammar.Code

/-!
# The entries of sections

One reader for each kind of entry that a section lists.
-/

namespace WasmInspect.Grammar

open Reader

/-- What is imported, by its kind. -/
def importType (kind : ExternalKind) : Reader ImportType :=
  if kind = .function then do
    let t ← varuint32
    pure (.function t)
  else if kind = .table then do
    let t ← tableType
    pure (.table t)
  else if kind = .memory then do
    let t ← memoryType
    pure (.memory t)
  else do
    let t ← globalType
    pure (.global t)

/-- An import. -/
def importEntry : Reader Import := restoring do
  let moduleName ← within (.part "module") nameText
  let field ← within (.part "field") nameText
  let kind ← externalKind
  let type ← within (.importOf kind) (importType kind)
  pure ⟨moduleName, field, kind, type⟩

/-- An export. -/
def exportEntry : Reader Export := restoring do
  let field ← within (.part "field") nameText
  let kind ← externalKind
  let index ← within (.part "index") varuint32
  pure ⟨field, kind, index⟩

/-- A global variable with its first value. -/
def globalEntry : Reader Global := restoring do
  let type ← globalType
  let init ← within (.part "init") expression
  pure ⟨type, init⟩

/-- Functions for a table. -/
def element : Reader Element := restoring do
  let table ← within (.part "table index") varuint32
  let offset ← within (.part "offset") expression
  let functions ← list "funcs" "func" varuint32
  pure ⟨table, offset, functions⟩

/-- Bytes for a memory. -/
def dataSegment : Reader Data := restoring do
  let memory ← within (.part "memory index") varuint32
  let offset ← within (.part "offset") expression
  let n ← within (.part "size") count
  let b ← within (.part "init") (bytes n)
  pure ⟨memory, offset, b⟩

/-- A group of local variables. -/
def localGroup : Reader LocalGroup := restoring do
  let n ← within (.part "count") varuint32
  let type ← valueType
  pure ⟨n, type⟩

/-- The content of a body of `size` bytes that starts at a position: local variables, then instructions until one byte of the size
is left. The next instruction must be `end` and must end where the body does. -/
def bodyContent (size start : Nat) : Reader FuncBody := do
  let (locals, n) ← measured (list "local count" "local" localGroup)
  let (code, m) ← measured (codeLoop (size - n) (size - n))
  let pos ← position
  let (last, k) ← measured instruction
  ensure (last.op = .blockEnd) (.malformed (.notEnd pos last.op))
  ensure (n + m + k = size) (.malformed (.bodyEnds (pos + k) (start + size)))
  pure ⟨size, locals, code⟩

/-- The body of a function: its size, which must not exceed what is left of the section, and its content. -/
def funcBody : Reader FuncBody := restoring do
  let size ← within (.part "body size") count
  let start ← position
  let fits ← hasRoom size
  ensure fits (.malformed (.bodyTooLong size))
  bodyContent size start

end WasmInspect.Grammar
