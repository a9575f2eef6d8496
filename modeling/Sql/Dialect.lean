import Sql.Error
import Sql.Name.Reserved
import Sql.Name.Quoted
import Sql.Value

/-!
# Dialects

How a statement is printed: the quotes around names, the placeholders of parameters, the case of
keywords and the layout. A dialect is plain data; `DialectConfig.fault?` says which data print text
of another meaning.
-/

namespace Sql

/-- What a placeholder looks like. -/
inductive ParameterStyle
  /-- The symbol and the name; one value for each name. -/
  | named
  /-- The symbol and a number from 1; one value for each placeholder. -/
  | indexed
  /-- The symbol alone; one value for each placeholder. -/
  | anonymous
deriving DecidableEq, Repr

/-- The case of keywords. -/
inductive KeywordCase
  | lower | upper
deriving DecidableEq, Repr

/-- Where a line ends relative to a separator. -/
inductive LineBreak
  | none | before | after
deriving DecidableEq, Repr

/-- How a statement is printed. -/
structure DialectConfig where
  /-- The quotes around every name; without them only a name that needs quotes gets some. -/
  identifierQuote : Option (String × String)
  parameterSymbol : String
  parameterStyle : ParameterStyle
  keywordCase : KeywordCase
  /-- What stands between clauses; one blank keeps the statement on one line. -/
  newline : String
  /-- What a line starts with, once for each level. -/
  indent : String
  commaBreak : LineBreak
  andBreak : LineBreak
deriving DecidableEq, Repr

namespace DialectConfig

/-- Bare names, `:name` placeholders and upper-case keywords on one line. -/
def generic : DialectConfig where
  identifierQuote := none
  parameterSymbol := ":"
  parameterStyle := .named
  keywordCase := .upper
  newline := " "
  indent := ""
  commaBreak := .none
  andBreak := .none

/-- Quoted names and lower-case keywords on one line. -/
def quoted (opening closing symbol : String) (style : ParameterStyle) : DialectConfig :=
  { generic with
    identifierQuote := some (opening, closing)
    parameterSymbol := symbol
    parameterStyle := style
    keywordCase := .lower }

/-- What makes a dialect unusable. -/
inductive Fault
  | emptySymbol
  | halfQuote
  | newlineNotBlank
  | indentNotBlank
deriving DecidableEq, Repr

/-- The message of a fault. -/
def Fault.message : Fault → String
  | emptySymbol => "dialect config: parameter_symbol must not be empty"
  | halfQuote => "dialect config: identifier_quote needs both an opening and a closing string"
  | newlineNotBlank => "dialect config: newline must be non-empty whitespace"
  | indentNotBlank => "dialect config: indent must be whitespace"

/-- One of the two quotes is missing. -/
def hasHalfQuote (c : DialectConfig) : Bool :=
  match c.identifierQuote with
  | some (opening, closing) => opening == "" || closing == ""
  | none => false

/-- The first fault of a dialect, if it has any. -/
def fault? (c : DialectConfig) : Option Fault :=
  if c.parameterSymbol = "" then some .emptySymbol
  else if c.hasHalfQuote then some .halfQuote
  else if c.newline = "" ∨ ¬ c.newline.toList.all Text.isBlank then some .newlineNotBlank
  else if ¬ c.indent.toList.all Text.isBlank then some .indentNotBlank
  else none

/-- Refuse a dialect with a fault. -/
def validate (c : DialectConfig) : Except Error Unit :=
  match c.fault? with
  | some f => .error (.format f.message)
  | none => .ok ()

/-- A keyword in the dialect's case. -/
def keyword (c : DialectConfig) (word : String) : String :=
  match c.keywordCase with
  | .upper => raiseCase word
  | .lower => foldCase word

/-- A name as the dialect writes it. -/
def name (c : DialectConfig) (n : String) : String :=
  match c.identifierQuote with
  | some (opening, closing) => quoteName n opening closing
  | none => if isPlainName n then n else quoteName n "\"" "\""

/-- The name of a function: parts with quotes only where they need some. -/
def functionName (c : DialectConfig) (n : String) : String :=
  dotted ((splitName n).map fun part => if isSimpleName part then part else c.name part)

/-- The layout spreads a statement over several lines. -/
def isMultiline (c : DialectConfig) : Bool := c.newline.toList.contains '\n'

/-- The end of a line, and the indentation of the next. -/
def lineEnd (c : DialectConfig) (depth : Nat) : String :=
  if c.isMultiline then c.newline ++ String.join (List.replicate depth c.indent) else c.newline

/-- What stands between two select items. -/
def comma (c : DialectConfig) (depth : Nat) : String :=
  match c.commaBreak with
  | .none => ", "
  | .after => "," ++ c.lineEnd (depth + 1)
  | .before => c.lineEnd (depth + 1) ++ ", "

/-- What stands between two conjuncts of a condition. -/
def conjunction (c : DialectConfig) (depth : Nat) : String :=
  let word := c.keyword "and"
  match c.andBreak with
  | .none => " " ++ word ++ " "
  | .after => " " ++ word ++ c.lineEnd (depth + 1)
  | .before => c.lineEnd (depth + 1) ++ word ++ " "

end DialectConfig

/-! ## Presets -/

/-- The dialects with a name. -/
inductive Dialect
  | generic | postgres | sqlite | mysql | sqlserver
deriving DecidableEq, Repr

namespace Dialect

/-- The name of a dialect. -/
def name : Dialect → String
  | generic => "generic"
  | postgres => "postgres"
  | sqlite => "sqlite"
  | mysql => "mysql"
  | sqlserver => "sqlserver"

/-- How the dialect prints. -/
def config : Dialect → DialectConfig
  | generic => .generic
  | postgres | sqlite => .quoted "\"" "\"" ":" .named
  | mysql => .quoted "\x60" "\x60" "?" .anonymous
  | sqlserver => .quoted "[" "]" "@" .named

/-- The names that each dialect answers to. -/
def aliases : Dialect → List String
  | generic => ["generic", "ansi"]
  | postgres => ["postgres", "postgresql", "pg"]
  | sqlite => ["sqlite"]
  | mysql => ["mysql", "mariadb"]
  | sqlserver => ["sqlserver", "mssql", "tsql"]

/-- Every dialect. -/
def all : List Dialect := [generic, postgres, sqlite, mysql, sqlserver]

/-- The dialect of that name, in any case and without surrounding blanks. -/
def ofName (name : String) : Except Error Dialect :=
  let key := foldCase (Text.trimBlank name)
  match all.find? fun d => d.aliases.contains key with
  | some d => .ok d
  | none => .error (.invalidArgument ("unknown dialect '" ++ key ++ "'"))

end Dialect

/-! ## Dialects as JSON -/

namespace DialectConfig

/-- The quotes: null for none, else a pair of strings. -/
def quotesOfJson : Value → Option (Option (String × String))
  | .null => some none
  | .array [.string opening, .string closing] => some (some (opening, closing))
  | _ => none

/-- A placeholder style by its name. -/
def styleOfJson (v : Value) : Option ParameterStyle :=
  match v.constant? with
  | some "named" => some .named
  | some "indexed" => some .indexed
  | some "anonymous" => some .anonymous
  | _ => none

/-- A keyword case by its name. -/
def caseOfJson (v : Value) : Option KeywordCase :=
  match v.constant? with
  | some "lower" => some .lower
  | some "upper" => some .upper
  | _ => none

/-- A place of a line break by its name. -/
def breakOfJson (v : Value) : Option LineBreak :=
  match v.constant? with
  | some "none" => some .none
  | some "before" => some .before
  | some "after" => some .after
  | _ => none

/-- The dialect that a JSON object describes; what it leaves out is as in the generic dialect. -/
def ofJson? : Value → Option DialectConfig
  | .object ms => do
    let g := generic
    let identifierQuote ← Value.memberOr ms "identifier_quote" g.identifierQuote quotesOfJson
    let parameterSymbol ← Value.memberOr ms "parameter_symbol" g.parameterSymbol Value.string?
    let parameterStyle ← Value.memberOr ms "parameter_style" g.parameterStyle styleOfJson
    let keywordCase ← Value.memberOr ms "keyword_case" g.keywordCase caseOfJson
    let newline ← Value.memberOr ms "newline" g.newline Value.string?
    let indent ← Value.memberOr ms "indent" g.indent Value.string?
    let commaBreak ← Value.memberOr ms "comma_break" g.commaBreak breakOfJson
    let andBreak ← Value.memberOr ms "and_break" g.andBreak breakOfJson
    return { identifierQuote, parameterSymbol, parameterStyle, keywordCase, newline, indent,
             commaBreak, andBreak }
  | _ => none

/-- The dialect that a JSON object describes, or a refusal. -/
def ofJson (v : Value) : Except Error DialectConfig :=
  match ofJson? v with
  | some c => .ok c
  | none => .error (.invalidArgument "dialect config")

/-- The name of a placeholder style. -/
def styleToJson : ParameterStyle → Value
  | .named => .string "named"
  | .indexed => .string "indexed"
  | .anonymous => .string "anonymous"

/-- The name of a keyword case. -/
def caseToJson : KeywordCase → Value
  | .lower => .string "lower"
  | .upper => .string "upper"

/-- The name of a place of a line break. -/
def breakToJson : LineBreak → Value
  | .none => .string "none"
  | .before => .string "before"
  | .after => .string "after"

/-- The dialect as a JSON object with all members. -/
def toJson (c : DialectConfig) : Value :=
  .object
    [("identifier_quote", match c.identifierQuote with
        | some (opening, closing) => .array [.string opening, .string closing]
        | none => .null),
     ("parameter_symbol", .string c.parameterSymbol),
     ("parameter_style", styleToJson c.parameterStyle),
     ("keyword_case", caseToJson c.keywordCase),
     ("newline", .string c.newline),
     ("indent", .string c.indent),
     ("comma_break", breakToJson c.commaBreak),
     ("and_break", breakToJson c.andBreak)]

end DialectConfig

end Sql
