import ScopeGrammar.Repository.Builder
import ScopeGrammar.WebAssembly.Lexeme

/-!
The rules of the WebAssembly text format. Every construct in parentheses is a region that a
parenthesis and a keyword open; it lists what can stand in it and, last of all, the form without a
keyword, so that a construct the grammar does not describe still keeps the region balanced.
Comments and annotations come first at every level.
-/

set_option autoImplicit false

namespace ScopeGrammar.WebAssembly

open Fragment

def metadata : Metadata := ⟨"WebAssembly Module", "source.wasm.wat", [".wat"]⟩

def root : String := "PARSE"

def moduleField : String := "moduleField"

def form : String := "sexpr"

/-- The keywords of the fields of a module and the rule for each, in the order they are tried. -/
def moduleFields : List (Keyword × String) := [
  (.data, "moduleFieldData"),
  (.elem, "moduleFieldElem"),
  (.exports, "moduleFieldExport"),
  (.func, "moduleFieldFunc"),
  (.global, "moduleFieldGlobal"),
  (.imports, "moduleFieldImport"),
  (.memory, "moduleFieldMemory"),
  (.start, "moduleFieldStart"),
  (.table, "moduleFieldTable"),
  (.type, "moduleFieldType")]

def placeholders : List String :=
  ["expr", "funcLocals", "importDesc", "instrList", "literal", "literalNAN", "tableFieldsElem",
    "typeUse"]

def entry : List Pattern := [.reference root]

def roundBrace : String := "meta.brace.round.wasm"

def groupRule (pattern : Fragment) (captures : List (Nat × String)) : Rule :=
  .single ⟨pattern, none, .ofList captures⟩

def spanRule (pattern : Fragment) (scope : String) : Rule :=
  .single ⟨pattern, some scope, .empty⟩

def choice (names : List String) : Rule := .anyOf (names.map .reference)

def between (opening closing : Fragment) (openingCaptures closingCaptures : List (Nat × String))
    (children : List Pattern) (scope contentScope : Option String) : Rule :=
  .region ⟨opening, closing, scope, contentScope, .ofList openingCaptures, .ofList closingCaptures⟩
    children

/-- A parenthesis and a keyword, with blanks and block comments between them. Group 1 is the
parenthesis and group 2 the keyword. -/
def clauseOpening (word : Fragment) : Fragment :=
  sequence [
    capture leftParenthesis,
    zeroOrMore (alternative [blank, blockComment]),
    capture (keyword word)]

def clause (word : Fragment) (keywordScope : String) (scope : Option String)
    (children : List Pattern) : Rule :=
  between (clauseOpening word) rightParenthesis
    [(1, roundBrace), (2, keywordScope)] [(0, roundBrace)] children scope none

/-- The identifier right behind the last `word`. -/
def nameAfter (word : Keyword) (scope : String) : Rule :=
  groupRule (sequence [lastKeyword word.letters, zeroOrMore blank, capture identifier]) [(1, scope)]

/-- The quote that ends a string, or where there is none the last character of the line, or if
nothing is left of the line its end. -/
def stringEnd : Fragment :=
  alternative [
    capture quote,
    capture (alternative [
      sequence [set ["^\\n".toList], lineEnd],
      .ofString "\\n"])]

def quoted (scope : String) : Rule :=
  between quote stringEnd
    [(0, "punctuation.definition.string.begin.wasm")]
    [(1, "punctuation.definition.string.end.wasm"), (2, "invalid.illegal.newline.wasm")]
    [.reference "stringCharacterEscape"] (some scope) none

/-- The name of the module of an import, which the keyword and a string behind it show. Without its
closing quote it ends at a parenthesis. -/
def importModuleName : Rule :=
  between
    (sequence [
      lastKeyword Keyword.imports.letters,
      lookAhead (sequence [zeroOrMore (alternative [blank, blockComment]), quote])])
    (alternative [lookBehind quote, lookAhead rightParenthesis])
    [] []
    [.reference "extra", .inline (quoted "entity.name.type.module.wasm")] none none

def lexicalRules : List (String × Rule) := [
  ("extra", choice ["comment", "annotation"]),
  ("comment", choice ["lineComment", "blockComment"]),
  ("lineComment",
    between
      (sequence [
        optional (capture (sequence [.ofString "^", oneOrMore blank])),
        capture (capture lineComment)])
      (lookAhead lineEnd)
      [(1, "punctuation.whitespace.comment.leading.wasm"),
        (2, "comment.line.double-semicolon.wasm"),
        (3, "punctuation.definition.comment.wasm")]
      [] [] (some "meta.comment.line.wasm") (some "comment.line.double-semicolon.wasm")),
  ("blockComment",
    between (capture blockCommentStart) (capture blockCommentEnd)
      [(1, "punctuation.definition.comment.wasm")] [(1, "punctuation.definition.comment.wasm")]
      [.reference "blockComment"] (some "meta.comment.block.wasm comment.block.wasm") none),
  ("annotation",
    between (sequence [leftParenthesis, lookAhead atSign]) rightParenthesis
      [(0, "meta.brace.round.annotation.wasm punctuation.definition.tag")]
      [(0, "meta.brace.round.annotation.wasm punctuation.definition.tag")]
      [.inline (groupRule
          (sequence [lookBehind leftParenthesis, capture atSign, capture (oneOrMore idChar)])
          [(1, "meta.annotation.name.wasm punctuation.definition.tag.wasm"),
            (2, "entity.name.tag.annotation.wasm")]),
        .reference "annotationPart"]
      (some "meta.annotation.wasm") (some "comment.wasm")),
  ("annotationPart", choice ["comment", "annotationParens", "string"]),
  ("annotationParens",
    between leftParenthesis rightParenthesis
      [(0, "meta.brace.round.annotation.wasm")] [(0, "meta.brace.round.annotation.wasm")]
      [.reference "annotationPart"] none none),
  ("string", quoted "string.quoted.double.wasm"),
  ("stringCharacterEscape", spanRule escape "constant.character.escape.wasm")]

def typeRules : List (String × Rule) := [
  ("valueType", spanRule valueType "storage.type.wasm"),
  ("elemType", spanRule (keyword Keyword.funcref.letters) "storage.type.wasm"),
  ("limits", spanRule unsignedInteger "constant.numeric.integer.wasm"),
  ("tableType", choice ["limits", "elemType"]),
  ("globalType", choice ["globalTypeMut", "globalTypeImm"]),
  ("globalTypeImm", choice ["valueType"]),
  ("globalTypeMut",
    clause Keyword.mutable.letters "storage.modifier.wasm" none
      [.reference "extra", .reference "valueType", .reference form]),
  ("funcType", choice ["funcTypeParams", "funcTypeResults"]),
  ("funcTypeParams",
    clause Keyword.param.letters "keyword.control.param.wasm" none
      [.reference "extra",
        .inline (spanRule identifier "entity.name.type.alias.wasm"),
        .reference "valueType",
        .reference form]),
  ("funcTypeResults",
    clause Keyword.result.letters "keyword.control.param.wasm" none
      [.reference "extra", .reference "valueType", .reference form])]

def moduleRules : List (String × Rule) := [
  ("module",
    clause Keyword.module.letters "storage.type.module.wasm" (some "meta.module.wasm")
      [.reference "extra",
        .inline (nameAfter .module "entity.name.type.module.wasm"),
        .reference moduleField,
        .reference form]),
  (moduleField, choice ("extra" :: moduleFields.map (·.2)))]

def fieldRules : List (String × Rule) := [
  ("moduleFieldData",
    clause Keyword.data.letters "storage.type.data.wasm" (some "meta.data.wasm")
      [.reference "extra",
        .inline (nameAfter .data "variable.other.constant entity.name.data.wasm"),
        .reference "string",
        .reference "expr",
        .reference form]),
  ("moduleFieldElem",
    clause Keyword.elem.letters "storage.type.elem.wasm" (some "meta.elem.wasm")
      [.reference "extra",
        .inline (nameAfter .elem "variable.other.constant entity.name.elem.wasm"),
        .inline (spanRule index "entity.name.function.wasm"),
        .reference "expr",
        .reference form]),
  ("moduleFieldExport",
    clause Keyword.exports.letters "keyword.control.export.wasm" (some "meta.export.wasm")
      [.reference "extra", .reference "exportName", .reference "exportDesc", .reference form]),
  ("moduleFieldFunc",
    clause Keyword.func.letters "storage.type.function.wasm" (some "meta.func.wasm")
      [.reference "extra",
        .inline (nameAfter .func "entity.name.function.wasm"),
        .reference "inlineExport",
        .reference "inlineImport",
        .reference "typeUse",
        .reference "funcType",
        .reference "funcLocals",
        .reference "expr",
        .reference "instrList",
        .reference form]),
  ("moduleFieldGlobal",
    clause Keyword.global.letters "storage.type.global.wasm" (some "meta.global.wasm")
      [.reference "extra",
        .inline (nameAfter .global "variable.other.global.wasm"),
        .reference "inlineExport",
        .reference "inlineImport",
        .reference "globalType",
        .reference "expr",
        .reference form]),
  ("moduleFieldImport",
    clause Keyword.imports.letters "keyword.control.import.wasm" (some "meta.import.wasm")
      [.reference "extra",
        .reference "inlineImportNames",
        .reference "importDesc",
        .reference form]),
  ("moduleFieldMemory",
    clause Keyword.memory.letters "storage.type.memory.wasm" (some "meta.memory.wasm")
      [.reference "extra",
        .inline (nameAfter .memory "variable.other.memory.wasm"),
        .reference "inlineExport",
        .reference "inlineImport",
        .reference "limits",
        .reference form]),
  ("moduleFieldStart",
    clause Keyword.start.letters "keyword.control.start.wasm" (some "meta.start.wasm")
      [.reference "extra",
        .inline (spanRule index "entity.name.function.wasm"),
        .reference form]),
  ("moduleFieldTable",
    clause Keyword.table.letters "storage.type.table.wasm" (some "meta.table.wasm")
      [.reference "extra",
        .inline (nameAfter .table "variable.other.table.wasm"),
        .reference "inlineExport",
        .reference "inlineImport",
        .reference "tableFieldsElem",
        .reference "tableType",
        .reference form]),
  ("moduleFieldType",
    clause Keyword.type.letters "storage.type.type.wasm" (some "meta.type.wasm")
      [.reference "extra",
        .inline (nameAfter .type "entity.name.type.alias.wasm"),
        .reference "typeField",
        .reference form])]

def clauseRules : List (String × Rule) := [
  ("typeField",
    clause Keyword.func.letters "storage.type.function.wasm" none
      [.reference "extra", .reference "funcType", .reference form]),
  ("inlineExport",
    clause Keyword.exports.letters "keyword.control.export.wasm" (some "meta.export.wasm")
      [.reference "extra", .reference "exportName", .reference form]),
  ("exportName", quoted "variable.other.readwrite.alias.wasm"),
  ("exportDesc",
    clause
      (alternative ([Keyword.func, .table, .memory, .global].map Keyword.letters))
      "storage.type.wasm" none
      [.reference "extra",
        .inline (spanRule index "variable.other.index.wasm"),
        .reference form]),
  ("inlineImport",
    clause Keyword.imports.letters "keyword.control.import.wasm" (some "meta.import.wasm")
      [.reference "extra", .reference "inlineImportNames", .reference form]),
  ("inlineImportNames", .anyOf [.inline importModuleName, .reference "exportName"]),
  ("identifier", spanRule identifier "variable.other.wasm"),
  ("instrPlainConst",
    groupRule
      (keyword (sequence [
        capture (alternative [
          capture (sequence [.ofString "i", alternative [.ofString "32", .ofString "64"]]),
          capture (sequence [.ofString "f", alternative [.ofString "32", .ofString "64"]])]),
        capture dot,
        capture Keyword.const.letters]))
      [(2, "storage.type.int.wasm"),
        (3, "storage.type.float.wasm"),
        (4, "punctuation.accessor.wasm"),
        (5, "keyword.control.const.wasm")]),
  (form,
    between leftParenthesis rightParenthesis [(0, roundBrace)] [(0, roundBrace)]
      [.reference "extra",
        .reference "string",
        .reference "instrPlainConst",
        .reference "literal",
        .reference "literalNAN",
        .reference "identifier",
        .reference form]
      none none)]

def rules : List (String × Rule) :=
  [(root, choice ["extra", "module", moduleField, form, "unexpectedParen"]),
    ("unexpectedParen", spanRule rightParenthesis "invalid.illegal.unexpected-paren.wasm")] ++
  lexicalRules ++ typeRules ++ moduleRules ++ fieldRules ++ clauseRules ++
  placeholders.map fun name => (name, .placeholder)

def register (b : Builder) : Builder × Option Defect := b.registerAll rules

def repository : Except Defect Repository :=
  match register (.new metadata) with
  | (b, none) => b.build entry
  | (_, some defect) => .error defect

end ScopeGrammar.WebAssembly
