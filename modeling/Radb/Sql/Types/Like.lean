import Mathlib

/-! # The LIKE operator

A pattern is rewritten into a regular expression by a sequence of textual
replacements, and the expression is then matched against the whole string. Only the
part of the expression language that the replacements can produce is modelled:
characters, escaped characters and dots, each of which may be repeated.
-/

namespace Radb.Sql.Like

/-- The characters with a meaning in regular expressions, which are escaped. -/
def isMeta (char : Char) : Bool :=
  char ∈ ['\\', '.', '+', '*', '?', '(', ')', '|', '[', ']', '\x7b', '\x7d', '^', '$', '#', '&',
    '-', '~']

/-- Escape a text such that it stands for itself. -/
def escape (text : List Char) : List Char :=
  text.flatMap fun char => if isMeta char then ['\\', char] else [char]

/-- Replace all occurrences of a text from left to right, after skipping some
characters of an occurrence already replaced. -/
def replaceFrom (text replacement : List Char) : Nat → List Char → List Char
  | _, [] => []
  | skip + 1, _ :: rest => replaceFrom text replacement skip rest
  | 0, char :: rest =>
    if text.isPrefixOf (char :: rest) then
      replacement ++ replaceFrom text replacement (text.length - 1) rest
    else
      char :: replaceFrom text replacement 0 rest

/-- Replace all occurrences of a text. -/
def replace (source text replacement : String) : String :=
  String.ofList (replaceFrom text.toList replacement.toList 0 source.toList)

/-- The regular expression of a pattern, without its anchors. -/
def expression (pattern : String) : String :=
  let escaped := String.ofList (escape pattern.toList)
  let sequences := replace (replace escaped "%" ".*") ".*.*" "%"
  replace (replace sequences "_" ".") ".." "_"

/-- What one character of the string is matched against. -/
inductive Item where
  | literal (char : Char)
  /-- Any character but a line feed. -/
  | dot
  deriving DecidableEq

/-- Whether an item stands for a character. -/
def Item.covers : Item → Char → Bool
  | .literal char, other => char = other
  | .dot, other => other ≠ '\n'

/-- Read the items of an expression, each with whether it may be repeated. -/
def parse : List Char → List (Item × Bool)
  | [] => []
  | '\\' :: char :: '*' :: rest => (.literal char, true) :: parse rest
  | '\\' :: char :: rest => (.literal char, false) :: parse rest
  | '.' :: '*' :: rest => (.dot, true) :: parse rest
  | '.' :: rest => (.dot, false) :: parse rest
  | char :: '*' :: rest => (.literal char, true) :: parse rest
  | char :: rest => (.literal char, false) :: parse rest

/-- Whether a string is any number of characters an item stands for, followed by
something that is accepted. -/
def repeats (item : Item) (accepts : List Char → Bool) : List Char → Bool
  | [] => accepts []
  | char :: rest => accepts (char :: rest) || (item.covers char && repeats item accepts rest)

/-- Whether a whole string matches a sequence of items. -/
def isMatch : List (Item × Bool) → List Char → Bool
  | [], text => text = []
  | (item, true) :: items, text => repeats item (isMatch items) text
  | (_, false) :: _, [] => false
  | (item, false) :: items, char :: rest => item.covers char && isMatch items rest

end Radb.Sql.Like

namespace Radb.Sql

/-- Whether a string is like a pattern. -/
def isLike (text pattern : String) : Bool :=
  Like.isMatch (Like.parse (Like.expression pattern).toList) text.toList

end Radb.Sql
