import Sql.Name

/-!
# Reserved words

Two lists of words. The first holds the words that end a name while a statement is read: none of
them is ever taken for a bare name or alias. The second holds the further reserved words of the
common dialects: they are read as names, but a printed name that is spelled like one of them is
quoted.
-/

namespace Sql

/-- Words that are never read as a bare name. -/
def stopWords : List String :=
  ["all", "and", "as", "asc", "between", "by", "case", "cast", "cross", "desc", "distinct",
   "else", "end", "except", "exists", "false", "from", "full", "group", "having", "ilike", "in",
   "inner", "intersect", "is", "join", "left", "like", "limit", "not", "null", "nulls", "offset",
   "on", "or", "order", "outer", "recursive", "right", "select", "then", "true", "union", "using",
   "when", "where", "with"]

/-- Words that are read as bare names but reserved in some dialect. -/
def dialectWords : List String :=
  ["alter", "analyse", "analyze", "any", "array", "asymmetric", "at", "authorization", "begin",
   "bigint", "binary", "blob", "boolean", "both", "call", "called", "cascaded", "char",
   "character", "check", "clob", "close", "collate", "collation", "column", "commit",
   "concurrently", "condition", "connect", "constraint", "corresponding", "create", "cube",
   "current", "current_catalog", "current_date", "current_role", "current_schema", "current_time",
   "current_timestamp", "current_user", "cursor", "cycle", "date", "day", "deallocate", "dec",
   "decimal", "declare", "default", "deferrable", "delete", "deref", "describe", "deterministic",
   "disconnect", "do", "double", "drop", "dynamic", "each", "element", "escape", "exec",
   "execute", "external", "fetch", "filter", "float", "for", "foreign", "free", "freeze",
   "function", "get", "global", "grant", "grouping", "hold", "hour", "identity", "indicator",
   "initially", "inout", "insensitive", "insert", "int", "integer", "interval", "into", "isnull",
   "language", "large", "lateral", "leading", "local", "localtime", "localtimestamp", "match",
   "member", "merge", "method", "minute", "modifies", "module", "month", "multiset", "national",
   "natural", "nchar", "nclob", "new", "no", "none", "notnull", "numeric", "of", "old", "only",
   "open", "out", "over", "overlaps", "parameter", "partition", "placing", "precision", "prepare",
   "primary", "procedure", "range", "reads", "real", "ref", "references", "referencing",
   "release", "return", "returning", "returns", "revoke", "rollback", "rollup", "row", "rows",
   "savepoint", "scope", "scroll", "search", "second", "sensitive", "session_user", "set",
   "similar", "smallint", "some", "specific", "specifictype", "sql", "sqlexception", "sqlstate",
   "sqlwarning", "start", "static", "submultiset", "symmetric", "system", "system_user", "table",
   "tablesample", "time", "timestamp", "timezone_hour", "timezone_minute", "to", "trailing",
   "translation", "treat", "trigger", "unique", "unknown", "unnest", "update", "user", "value",
   "values", "varchar", "variadic", "varying", "verbose", "whenever", "window", "within",
   "without", "year"]

/-- A word that is never read as a bare name, in any case. -/
def isStopWord (word : String) : Bool := stopWords.contains (foldCase word)

/-- A word that is only safe as a name inside quotes. -/
def needsQuotes (word : String) : Bool :=
  stopWords.contains (foldCase word) || dialectWords.contains (foldCase word)

/-- A name that can be written bare and reads back unchanged in every dialect. -/
def isPlainName (name : String) : Bool := isSimpleName name && !needsQuotes name

theorem needsQuotes_of_isStopWord {word : String} (h : isStopWord word = true) :
    needsQuotes word = true := by
  simp only [isStopWord] at h
  simp only [needsQuotes, h, Bool.true_or]

end Sql
