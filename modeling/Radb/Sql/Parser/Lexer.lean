import Radb.Sql.Parser.Token

/-! # The lexer and quoted identifiers

The lexer takes tokens from the front of a text. Identifiers are printed in quotes where they need
them. An identifier that is printed without quotes is read back as it is only if the classes of
characters that the printer and the lexer use agree on it and it has no upper-case letter.
-/

namespace Radb.Sql

/-- All keywords. -/
def Keyword.all : List Keyword :=
  [.and, .«as», .asc, .begin, .bool, .boolean, .«by», .char, .commit, .create, .cross, .default,
    .delete, .desc, .double, .drop, .exists, .explain, .false, .float, .«from», .group, .having,
    .«if», .index, .infinity, .inner, .insert, .int, .integer, .into, .is, .join, .key, .left,
    .like, .limit, .nan, .not, .null, .of, .offset, .on, .only, .or, .order, .outer, .primary,
    .read, .references, .right, .rollback, .select, .set, .string, .system, .table, .text,
    .time, .transaction, .true, .unique, .update, .values, .varchar, .«where», .write]

/-- The properties of characters: those of the standard library, and what matches `\w` in a regular
expression. -/
class Characters where
  isAlphabetic : Char → Bool
  isNumeric : Char → Bool
  isWhitespace : Char → Bool
  isWord : Char → Bool
  toLowercase : List Char → List Char
  toUppercase : List Char → List Char
  quote_isWhitespace : isWhitespace '"' = false
  quote_isWord : isWord '"' = false
  apostrophe_isWord : isWord '\'' = false
  isWord_isWhitespace : ∀ char, isWord char = true → isWhitespace char = false

/-- The properties of characters in texts of ASCII characters. -/
@[reducible]
def Characters.ascii : Characters where
  isAlphabetic := Char.isAlpha
  isNumeric := Char.isDigit
  isWhitespace char := char = ' ' || 9 ≤ char.toNat && char.toNat ≤ 13
  isWord char := char.isAlphanum || char = '_'
  toLowercase := List.map Char.toLower
  toUppercase := List.map Char.toUpper
  quote_isWhitespace := by decide
  quote_isWord := by decide
  apostrophe_isWord := by decide
  isWord_isWhitespace char word := by
    by_contra space
    simp only [Bool.not_eq_false, Bool.or_eq_true, Bool.and_eq_true, decide_eq_true_eq] at space
    rcases space with rfl | bounds
    · exact absurd word (by decide)
    · have low : char ∈ (List.range 14).map Char.ofNat :=
        List.mem_map.mpr ⟨char.toNat, List.mem_range.mpr (by omega), Char.ofNat_toNat char⟩
      have none : ((List.range 14).map Char.ofNat).all
          (fun char => !(char.isAlphanum || char = '_')) = true := by decide
      simpa [word] using List.all_eq_true.mp none char low

open Characters

variable [Characters]

/-- The keyword a name stands for, if any. -/
def Keyword.fromStr (ident : List Char) : Option Keyword :=
  Keyword.all.find? (·.toStr = String.ofList (toUppercase ident))

namespace Lexer

/-- Grabs the next character if it matches the predicate function. -/
def nextIf (predicate : Char → Bool) : List Char → List Char × List Char
  | [] => ([], [])
  | char :: text => if predicate char then ([char], text) else ([], char :: text)

/-- Grabs the next characters that match the predicate. -/
def nextWhile (predicate : Char → Bool) (text : List Char) : List Char × List Char :=
  (text.takeWhile predicate, text.dropWhile predicate)

/-- Scans up to the closing quote, where a doubled quote stands for a single one. -/
def scanQuoted (quote : Char) : List Char → Option (List Char × List Char)
  | [] => none
  | [char] => if char = quote then some ([], []) else none
  | char :: second :: text =>
    if char = quote then
      if second = quote then (scanQuoted quote text).map fun read => (quote :: read.1, read.2)
      else some ([], second :: text)
    else (scanQuoted quote (second :: text)).map fun read => (char :: read.1, read.2)

/-- Whether a character can follow the first one of a name. -/
def isName (char : Char) : Bool :=
  isAlphabetic char || isNumeric char || char = '_'

/-- Scans the input for the next ident or keyword token, if any. -/
def scanIdent : List Char → Option Token × List Char
  | [] => (none, [])
  | char :: text =>
    if isAlphabetic char then
      let (others, text) := nextWhile isName text
      let name := char :: others
      (some (match Keyword.fromStr name with
        | some keyword => .keyword keyword
        | none => .ident (String.ofList (toLowercase name))), text)
    else (none, char :: text)

/-- Scans the input for the next number token, if any. -/
def scanNumber (text : List Char) : Option Token × List Char :=
  let (num, text) := nextWhile Char.isDigit text
  if num = [] then (none, text)
  else
    let (sep, text) := nextIf (· = '.') text
    let (dec, text) := if sep = [] then ([], text) else nextWhile Char.isDigit text
    let (exp, text) := nextIf (fun char => char = 'e' || char = 'E') text
    let (sign, text) :=
      if exp = [] then ([], text) else nextIf (fun char => char = '+' || char = '-') text
    let (power, text) := if exp = [] then ([], text) else nextWhile Char.isDigit text
    (some (.number (String.ofList (num ++ sep ++ dec ++ exp ++ sign ++ power))), text)

/-- Scans the input for the next symbol token, if any, and handles any multi-symbol tokens. -/
def scanSymbol : List Char → Option Token × List Char
  | '!' :: '=' :: text => (some .notEqual, text)
  | '<' :: '>' :: text => (some .lessOrGreaterThan, text)
  | '<' :: '=' :: text => (some .lessThanOrEqual, text)
  | '>' :: '=' :: text => (some .greaterThanOrEqual, text)
  | '.' :: text => (some .period, text)
  | '=' :: text => (some .equal, text)
  | '>' :: text => (some .greaterThan, text)
  | '<' :: text => (some .lessThan, text)
  | '+' :: text => (some .plus, text)
  | '-' :: text => (some .minus, text)
  | '*' :: text => (some .asterisk, text)
  | '/' :: text => (some .slash, text)
  | '^' :: text => (some .caret, text)
  | '%' :: text => (some .percent, text)
  | '!' :: text => (some .exclamation, text)
  | '?' :: text => (some .question, text)
  | '(' :: text => (some .openParen, text)
  | ')' :: text => (some .closeParen, text)
  | ',' :: text => (some .comma, text)
  | ';' :: text => (some .semicolon, text)
  | text => (none, text)

/-- Scans a token that begins with the given character. -/
def scanToken (char : Char) (text : List Char) : Except Error (Option Token) × List Char :=
  if char = '\'' then
    match scanQuoted '\'' text with
    | some (string, text) => (.ok (some (.string (String.ofList string))), text)
    | none => (.error (.parse "Unexpected end of string literal"), [])
  else if char = '"' then
    match scanQuoted '"' text with
    | some (ident, text) => (.ok (some (.ident (String.ofList ident))), text)
    | none => (.error (.parse "Unexpected end of quoted identifier"), [])
  else
    let scanned := if char.isDigit then scanNumber (char :: text)
      else if isAlphabetic char then scanIdent (char :: text)
      else scanSymbol (char :: text)
    (.ok scanned.1, scanned.2)

/-- Scans the input for the next token if any, ignoring leading whitespace. -/
def scan (text : List Char) : Except Error (Option Token) × List Char :=
  match text.dropWhile isWhitespace with
  | [] => (.ok none, [])
  | char :: text => scanToken char text

/-- The next token or error, if any, and what is left of the text. -/
def next (text : List Char) : Option (Except Error Token) × List Char :=
  match scan text with
  | (.ok (some token), text) => (some (.ok token), text)
  | (.ok none, text) =>
    (text.head?.map fun char => .error (.parse s!"Unexpected character {char}"), text)
  | (.error error, text) => (some (.error error), text)

end Lexer

/-- Whether a name consists of word characters. -/
def isIdent (ident : List Char) : Bool := !ident.isEmpty && ident.all isWord

/-- Doubles the quotes in a name. -/
def escape (ident : List Char) : List Char :=
  ident.flatMap fun char => if char = '"' then ['"', '"'] else [char]

/-- Formats an identifier by quoting it as appropriate. -/
def formatIdent (ident : List Char) : List Char :=
  if isIdent ident && (Keyword.fromStr ident).isNone then ident
  else '"' :: (escape ident ++ ['"'])

namespace Lexer

variable {ident text left : List Char} {char : Char} {name : String}

omit [Characters] in
theorem scanQuoted_escape (ident : List Char) :
    scanQuoted '"' (escape ident ++ ['"']) = some (ident, []) := by
  induction ident with
  | nil => rfl
  | cons char rest ih =>
    rw [escape, List.flatMap_cons, ← escape, List.append_assoc]
    by_cases quote : char = '"'
    · subst quote
      simp [scanQuoted, ih]
    · rw [if_neg quote, List.singleton_append]
      generalize escape rest ++ ['"'] = escaped at ih
      cases escaped with
      | nil => cases ih
      | cons second others => simp [scanQuoted, quote, ih]

omit [Characters] in
/-- A symbol is no identifier, and characters that are no symbol are left alone. -/
theorem scanSymbol_spec (text : List Char) :
    (∀ name, (scanSymbol text).1 ≠ some (.ident name)) ∧
      ((scanSymbol text).1 = none → (scanSymbol text).2 = text) := by
  unfold scanSymbol
  split <;> exact ⟨nofun, fun _ => by first | rfl | contradiction⟩

omit [Characters] in
/-- A number is no identifier. -/
theorem scanNumber_spec (digit : char.isDigit = true) (text : List Char) :
    ∃ number, (scanNumber (char :: text)).1 = some (.number number) := by
  simp only [scanNumber, nextWhile, List.takeWhile_cons, digit, ↓reduceIte, reduceCtorEq]
  exact ⟨_, rfl⟩

theorem scanIdent_eq (letter : isAlphabetic char = true) (text : List Char) :
    ∃ token, (scanIdent (char :: text)).1 = some token := by
  simp only [scanIdent, letter, ↓reduceIte]
  exact ⟨_, rfl⟩

/-- Where there is no token, no character is taken. -/
theorem scanToken_none (none : (scanToken char text).1 = .ok none) :
    (scanToken char text).2 = char :: text := by
  unfold scanToken at none ⊢
  split at none
  · split at none <;> cases none
  · split at none
    · split at none <;> cases none
    · rename_i single double
      rw [if_neg single, if_neg double]
      dsimp only at none ⊢
      by_cases digit : char.isDigit = true
      · obtain ⟨number, found⟩ := scanNumber_spec digit text
        rw [if_pos digit, found] at none
        cases none
      · rw [if_neg digit] at none ⊢
        by_cases letter : isAlphabetic char = true
        · obtain ⟨token, found⟩ := scanIdent_eq letter text
          rw [if_pos letter, found] at none
          cases none
        · rw [if_neg letter] at none ⊢
          exact (scanSymbol_spec _).2 (Except.ok.inj none)

/-- There is neither a token nor an error only at the end of a text. -/
theorem dropWhile_of_next (done : (next text).1 = none) :
    text.dropWhile isWhitespace = [] := by
  cases trimmed : text.dropWhile isWhitespace with
  | nil => rfl
  | cons char rest =>
    have scanned : scan text = scanToken char rest := by rw [scan, trimmed]
    have taken : (scanToken char rest).1 = .ok none → _ := scanToken_none
    rw [← scanned] at taken
    unfold next at done
    split at done
    · cases done
    next left found =>
      rw [found] at taken
      have unread : left = char :: rest := taken rfl
      rw [unread] at done
      cases done
    · cases done

theorem next_eq_token {token : Token} :
    next text = (some (.ok token), left) ↔ scan text = (.ok (some token), left) := by
  unfold next
  split
  next found =>
    rw [found]
    simp
  next rest found =>
    rw [found]
    cases rest <;> simp
  next found =>
    rw [found]
    simp

/-- What is read as an identifier without quotes. -/
theorem scanToken_eq_ident (single : char ≠ '\'') (double : char ≠ '"') :
    scanToken char text = (.ok (some (.ident name)), left) ↔
      (char.isDigit = false ∧ isAlphabetic char = true) ∧
        Keyword.fromStr (char :: text.takeWhile isName) = none ∧
        String.ofList (toLowercase (char :: text.takeWhile isName)) = name ∧
        text.dropWhile isName = left := by
  rw [scanToken, if_neg single, if_neg double]
  by_cases digit : char.isDigit = true
  · obtain ⟨number, found⟩ := scanNumber_spec digit text
    simp [digit, found]
  · by_cases letter : isAlphabetic char = true
    · simp only [digit, letter, scanIdent, nextWhile, ↓reduceIte]
      cases Keyword.fromStr (char :: text.takeWhile isName) <;> simp
    · simp [digit, letter, (scanSymbol_spec (char :: text)).1]

/-- A name is printed so that it is read back as the same identifier, and nothing is left. -/
def RoundTrips (ident : List Char) : Prop :=
  ∃ left, next (formatIdent ident) = (some (.ok (.ident (String.ofList ident))), left) ∧
    (next left).1 = none

/-- A name that the lexer reads as it is: a letter, then letters, digits and underscores, all of
them in lower case. -/
def Bare (ident : List Char) : Prop :=
  (∀ first ∈ ident.head?, first.isDigit = false ∧ isAlphabetic first = true) ∧
    (∀ char ∈ ident.tail, isName char = true) ∧ toLowercase ident = ident

/-- In quotes, every name is read back. -/
theorem roundTrips_of_quoted (quoted : isIdent ident = true → Keyword.fromStr ident ≠ none) :
    RoundTrips ident := by
  refine ⟨[], next_eq_token.mpr ?_, rfl⟩
  have open_ : ¬ (isIdent ident && (Keyword.fromStr ident).isNone) = true := by
    simpa using quoted
  rw [formatIdent, if_neg open_, scan, List.dropWhile_cons_of_neg (by simp [quote_isWhitespace])]
  simp only [scanToken, Char.reduceEq, ↓reduceIte, scanQuoted_escape]

/-- A name without quotes is read back exactly if the lexer reads it as it is. -/
theorem roundTrips_iff_bare (word : isIdent ident = true) (free : Keyword.fromStr ident = none) :
    RoundTrips ident ↔ Bare ident := by
  cases ident with
  | nil => cases word
  | cons first rest =>
    have words : ∀ char ∈ first :: rest, isWord char = true := by simpa [isIdent] using word
    have spaceless : ∀ char ∈ first :: rest, isWhitespace char = false :=
      fun char member => isWord_isWhitespace char (words char member)
    have head := words first List.mem_cons_self
    have single : first ≠ '\'' := by
      rintro rfl
      cases head.symm.trans apostrophe_isWord
    have double : first ≠ '"' := by
      rintro rfl
      cases head.symm.trans quote_isWord
    have plain : formatIdent (first :: rest) = first :: rest := by
      simp [formatIdent, word, free]
    have scanned : scan (first :: rest) = scanToken first rest := by
      rw [scan, List.dropWhile_cons_of_neg (by simp [spaceless first List.mem_cons_self])]
    simp only [RoundTrips, plain, next_eq_token, scanned, scanToken_eq_ident single double]
    constructor
    · rintro ⟨left, ⟨start, _, lower, rfl⟩, done⟩
      have ended : rest.dropWhile isName = [] := by
        rw [← dropWhile_of_next done]
        refine (List.dropWhile_eq_self_iff.mpr ?_).symm
        intro inside
        have kept := (List.dropWhile_sublist _).subset (List.getElem_mem inside)
        simp [spaceless _ (List.mem_cons_of_mem _ kept)]
      have names := List.dropWhile_eq_nil_iff.mp ended
      rw [List.takeWhile_eq_self_iff.mpr names] at lower
      exact ⟨by simpa using start, names, String.ofList_injective lower⟩
    · rintro ⟨start, names, lower⟩
      have whole : rest.takeWhile isName = rest := List.takeWhile_eq_self_iff.mpr names
      refine ⟨[], ⟨start first rfl, ?_, ?_, List.dropWhile_eq_nil_iff.mpr names⟩, rfl⟩
      · rw [whole]
        exact free
      · rw [whole, lower]

/-- Names are printed so that they are read back, unless they are printed without quotes and are not
read as they are. -/
theorem roundTrips_iff (ident : List Char) :
    RoundTrips ident ↔ (isIdent ident = true → Keyword.fromStr ident = none → Bare ident) := by
  by_cases quoted : isIdent ident = true → Keyword.fromStr ident ≠ none
  · exact iff_of_true (roundTrips_of_quoted quoted) fun word free => absurd free (quoted word)
  · obtain ⟨word, free⟩ := Classical.not_imp.mp quoted
    rw [not_not] at free
    rw [roundTrips_iff_bare word free]
    exact ⟨fun bare _ _ => bare, fun bare => bare word free⟩

omit [Characters] in
/-- A name in upper case is read back in lower case. -/
theorem upper_case_lost :
    @next .ascii (@formatIdent .ascii "Books".toList) = (some (.ok (.ident "books")), []) ∧
      ¬ @RoundTrips .ascii "Books".toList := by
  have read : @next .ascii (@formatIdent .ascii "Books".toList) =
      (some (.ok (.ident "books")), []) := by decide +kernel
  refine ⟨read, ?_⟩
  rintro ⟨left, found, _⟩
  have same := congrArg Prod.fst (read.symm.trans found)
  dsimp only at same
  exact absurd same (by decide +kernel)

/-- Doubles every quote in a text. -/
def double (quote : Char) (content : List Char) : List Char :=
  content.flatMap fun char => if char = quote then [quote, quote] else [char]

omit [Characters] in
/-- A quoted text is its content with doubled quotes, up to a quote that is not doubled. -/
theorem scanQuoted_iff {quote : Char} {content : List Char} :
    scanQuoted quote text = some (content, left) ↔
      text = double quote content ++ quote :: left ∧ left.head? ≠ some quote := by
  constructor
  · intro scanned
    fun_induction scanQuoted quote text generalizing content with
    | case1 | case3 => cases scanned
    | case2 => cases scanned; simp [double]
    | case4 text ih =>
      obtain ⟨read, found, same⟩ := Option.map_eq_some_iff.mp scanned
      cases same
      obtain ⟨rfl, open_⟩ := ih found
      simp [double, open_]
    | case5 second text different =>
      cases scanned
      simp [double, different]
    | case6 char second text different ih =>
      obtain ⟨read, found, same⟩ := Option.map_eq_some_iff.mp scanned
      cases same
      obtain ⟨shape, open_⟩ := ih found
      simp [double, different, open_, shape]
  · rintro ⟨rfl, open_⟩
    induction content with
    | nil => cases left <;> simp_all [double, scanQuoted]
    | cons char rest ih =>
      rw [double, List.flatMap_cons, ← double, List.append_assoc]
      by_cases doubled : char = quote
      · simp [scanQuoted, doubled, ih]
      · rw [if_neg doubled, List.singleton_append]
        generalize double quote rest ++ quote :: left = tail at ih
        cases tail with
        | nil => cases ih
        | cons second others => simp [scanQuoted, doubled, ih]

/-- A string literal is read exactly from its text with doubled apostrophes in apostrophes, with
no apostrophe behind it, and everything behind it is left. -/
theorem string_literal_iff (text content left : List Char) :
    next text = (some (.ok (.string (String.ofList content))), left) ↔
      text.dropWhile isWhitespace = '\'' :: (double '\'' content ++ '\'' :: left) ∧
        left.head? ≠ some '\'' := by
  rw [next_eq_token, scan]
  cases text.dropWhile isWhitespace with
  | nil => simp
  | cons char rest =>
    simp only [List.cons.injEq, and_assoc, ← scanQuoted_iff]
    by_cases single : char = '\''
    · cases read : scanQuoted '\'' rest with
      | none => simp [scanToken, single, read]
      | some pair => simp [scanToken, single, read, Prod.ext_iff, String.ofList_inj]
    · refine iff_of_false ?_ fun both => single both.1
      have symbol (name : String) : (scanSymbol (char :: rest)).1 ≠ some (.string name) := by
        unfold scanSymbol
        split <;> simp
      intro read
      rw [scanToken, if_neg single] at read
      by_cases quoted : char = '"'
      · cases found : scanQuoted '"' rest <;> simp [quoted, found] at read
      · by_cases digit : char.isDigit = true
        · obtain ⟨number, found⟩ := scanNumber_spec digit rest
          simp [quoted, digit, found] at read
        · by_cases letter : isAlphabetic char = true
          · have kind := congrArg Prod.fst read
            simp only [quoted, digit, letter, scanIdent, ↓reduceIte, Bool.false_eq_true,
              Except.ok.injEq, Option.some.injEq] at kind
            split at kind <;> cases kind
          · simp [quoted, digit, letter, symbol] at read

end Lexer

end Radb.Sql
