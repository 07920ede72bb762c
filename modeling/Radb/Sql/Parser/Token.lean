import Radb.Sql.Types.Value

/-! # Tokens

The tokens of SQL text, and how they are shown in errors.
-/

namespace Radb.Sql

/-- Lexer keywords. -/
inductive Keyword where
  | and | «as» | asc | begin | bool | boolean | «by» | char | commit | create | cross | default
  | delete | desc | double | drop | exists | explain | false | float | «from» | group | having
  | «if» | index | infinity | inner | insert | int | integer | into | is | join | key | left
  | like | limit | nan | not | null | of | offset | on | only | or | order | outer | primary
  | read | references | right | rollback | select | set | string | system | table | text | time
  | transaction | true | unique | update | values | varchar | «where» | write
  deriving DecidableEq

/-- The spelling of a keyword. -/
def Keyword.toStr : Keyword → String
  | .and => "AND"
  | .«as» => "AS"
  | .asc => "ASC"
  | .begin => "BEGIN"
  | .bool => "BOOL"
  | .boolean => "BOOLEAN"
  | .«by» => "BY"
  | .char => "CHAR"
  | .commit => "COMMIT"
  | .create => "CREATE"
  | .cross => "CROSS"
  | .default => "DEFAULT"
  | .delete => "DELETE"
  | .desc => "DESC"
  | .double => "DOUBLE"
  | .drop => "DROP"
  | .exists => "EXISTS"
  | .explain => "EXPLAIN"
  | .false => "FALSE"
  | .float => "FLOAT"
  | .«from» => "FROM"
  | .group => "GROUP"
  | .having => "HAVING"
  | .«if» => "IF"
  | .index => "INDEX"
  | .infinity => "INFINITY"
  | .inner => "INNER"
  | .insert => "INSERT"
  | .int => "INT"
  | .integer => "INTEGER"
  | .into => "INTO"
  | .is => "IS"
  | .join => "JOIN"
  | .key => "KEY"
  | .left => "LEFT"
  | .like => "LIKE"
  | .limit => "LIMIT"
  | .nan => "NAN"
  | .not => "NOT"
  | .null => "NULL"
  | .of => "OF"
  | .offset => "OFFSET"
  | .on => "ON"
  | .only => "ONLY"
  | .or => "OR"
  | .order => "ORDER"
  | .outer => "OUTER"
  | .primary => "PRIMARY"
  | .read => "READ"
  | .references => "REFERENCES"
  | .right => "RIGHT"
  | .rollback => "ROLLBACK"
  | .select => "SELECT"
  | .set => "SET"
  | .string => "STRING"
  | .system => "SYSTEM"
  | .table => "TABLE"
  | .text => "TEXT"
  | .time => "TIME"
  | .transaction => "TRANSACTION"
  | .true => "TRUE"
  | .unique => "UNIQUE"
  | .update => "UPDATE"
  | .values => "VALUES"
  | .varchar => "VARCHAR"
  | .«where» => "WHERE"
  | .write => "WRITE"

/-- A lexer token. -/
inductive Token where
  | number (text : String)
  | string (text : String)
  | ident (name : String)
  | keyword (keyword : Keyword)
  | period
  | equal
  | greaterThan
  | greaterThanOrEqual
  | lessThan
  | lessThanOrEqual
  | lessOrGreaterThan
  | plus
  | minus
  | asterisk
  | slash
  | caret
  | percent
  | exclamation
  | notEqual
  | question
  | openParen
  | closeParen
  | comma
  | semicolon
  deriving DecidableEq

instance : Coe Keyword Token := ⟨Token.keyword⟩

instance : ToString Token where
  toString
    | .number text => text
    | .string text => text
    | .ident name => name
    | .keyword keyword => keyword.toStr
    | .period => "."
    | .equal => "="
    | .greaterThan => ">"
    | .greaterThanOrEqual => ">="
    | .lessThan => "<"
    | .lessThanOrEqual => "<="
    | .lessOrGreaterThan => "<>"
    | .plus => "+"
    | .minus => "-"
    | .asterisk => "*"
    | .slash => "/"
    | .caret => "^"
    | .percent => "%"
    | .exclamation => "!"
    | .notEqual => "!="
    | .question => "?"
    | .openParen => "("
    | .closeParen => ")"
    | .comma => ","
    | .semicolon => ";"

end Radb.Sql
