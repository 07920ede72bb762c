import Radb.Sql.Types.Expression

/-! # Documented patterns

The documentation of LIKE reads a pattern from left to right: a percent sign stands
for any characters, an underscore for any one, and either stands for itself when
doubled. A string matches if it is the concatenation of one stretch for every part.

The replacements get most patterns right, since they pair the same percent signs and,
before the last of them, leave a dot only for a wildcard. The last one also pairs a dot
with the one before it, be that an underscore or an escaped full stop: the patterns
that show neither are the faithful ones. Their wildcards never stand for a line feed.
-/

namespace Radb.Sql.Like

variable {text pattern : String} {rest : List Char} {char : Char} {covers : Item → Char → Bool}

/-- A part of a pattern. -/
inductive Part where
  | literal (char : Char)
  | one
  | many

/-- The parts of a pattern, from left to right. -/
def parts : List Char → List Part
  | '%' :: '%' :: rest => .literal '%' :: parts rest
  | '_' :: '_' :: rest => .literal '_' :: parts rest
  | '%' :: rest => .many :: parts rest
  | '_' :: rest => .one :: parts rest
  | char :: rest => .literal char :: parts rest
  | [] => []

/-- Whether a part stands for a stretch of characters. -/
def Part.Spells : Part → List Char → Prop
  | .literal char, stretch => stretch = [char]
  | .one, stretch => ∃ char, stretch = [char]
  | .many, _ => True

/-- Whether a text is the concatenation of one stretch for each item. -/
def Splits {α : Type*} (spells : α → List Char → Prop) : List α → List Char → Prop
  | [], text => text = []
  | item :: items, text =>
    ∃ stretch rest, stretch ++ rest = text ∧ spells item stretch ∧ Splits spells items rest

/-- Whether a string matches a pattern, as documented. -/
def Documented (pattern text : String) : Prop :=
  Splits Part.Spells (parts pattern.toList) text.toList

/-- The comparison of a string with a pattern tells whether they match. -/
def Agrees (text pattern : String) : Prop :=
  ∀ (row : Row) (left right : Expression), left.evaluate row = .ok (.string text) →
    right.evaluate row = .ok (.string pattern) →
      ∃ answer, (left.like right).evaluate row = .ok (.boolean answer) ∧
        (answer = true ↔ Documented pattern text)

/-- No full stop comes before an underscore or a wildcard for any characters, and no
wildcard for one character comes before one for any. -/
def faithful : List Char → Bool
  | '.' :: '_' :: _ => false
  | '.' :: '%' :: '%' :: rest => faithful rest
  | '.' :: '%' :: _ => false
  | '_' :: '_' :: rest => faithful rest
  | '_' :: '%' :: '%' :: rest => faithful rest
  | '_' :: '%' :: _ => false
  | '%' :: '%' :: rest => faithful rest
  | _ :: rest => faithful rest
  | [] => true

/-- The number of line feeds. -/
def breaks (text : String) : Nat := text.toList.count '\n'

theorem evaluate_like {row : Row} {left right : Expression}
    (isText : left.evaluate row = .ok (.string text))
    (isPattern : right.evaluate row = .ok (.string pattern)) :
    (left.like right).evaluate row = .ok (.boolean (isLike text pattern)) := by
  rw [Expression.evaluate, isText, isPattern]
  change Value.like (.string text) (.string pattern) = _
  rw [Value.like]

theorem agrees_iff :
    Agrees text pattern ↔ (isLike text pattern = true ↔ Documented pattern text) := by
  constructor
  · intro agrees
    have isText : (Expression.constant (.string text)).evaluate [] = .ok (.string text) := rfl
    have isPattern :
        (Expression.constant (.string pattern)).evaluate [] = .ok (.string pattern) := rfl
    obtain ⟨answer, evaluates, matched⟩ := agrees _ _ _ isText isPattern
    rw [evaluate_like isText isPattern] at evaluates
    rw [Value.boolean.inj (Except.ok.inj evaluates)]
    exact matched
  · intro matched row left right isText isPattern
    exact ⟨_, evaluate_like isText isPattern, matched⟩

/-! ## The items of the expression -/

/-- The expression before the last replacement. -/
def regular : List Char → List Char
  | '%' :: '%' :: rest => '%' :: regular rest
  | '%' :: rest => '.' :: '*' :: regular rest
  | '_' :: rest => '.' :: regular rest
  | char :: rest => (if isMeta char then ['\\', char] else [char]) ++ regular rest
  | [] => []

/-- The items of the expression of a pattern. -/
def translate : List Char → List (Item × Bool)
  | '.' :: '_' :: rest => (.literal '_', false) :: translate rest
  | '.' :: '%' :: '%' :: rest => (.literal '.', false) :: (.literal '%', false) :: translate rest
  | '.' :: '%' :: rest => (.literal '_', true) :: translate rest
  | '_' :: '_' :: rest => (.literal '_', false) :: translate rest
  | '_' :: '%' :: '%' :: rest => (.dot, false) :: (.literal '%', false) :: translate rest
  | '_' :: '%' :: rest => (.literal '_', true) :: translate rest
  | '%' :: '%' :: rest => (.literal '%', false) :: translate rest
  | '%' :: rest => (.dot, true) :: translate rest
  | '_' :: rest => (.dot, false) :: translate rest
  | char :: rest => (.literal char, false) :: translate rest
  | [] => []

theorem replaceFrom_char (char : Char) (replacement : List Char) :
    ∀ text, replaceFrom [char] replacement 0 text =
      text.flatMap fun other => if other = char then replacement else [other]
  | [] => rfl
  | other :: rest => by
    rw [replaceFrom, List.flatMap_cons, List.length_singleton, replaceFrom_char _ _ rest]
    by_cases same : other = char
    · simp [same]
    · simp [same, Ne.symm same]

/-- Escaped, no special character but the backslash comes first. -/
theorem escape_ne {special : Char} (isSpecial : isMeta special = true) (other : special ≠ '\\')
    (char : Char) (rest tail : List Char) :
    (if isMeta char then ['\\', char] else [char]) ++ rest ≠ special :: tail := by
  by_cases both : isMeta char = true
  · simp [both, other.symm]
  · have apart : char ≠ special := by
      rintro rfl
      exact both isSpecial
    simp [both, apart]

theorem regular_ne_star (pattern rest : List Char) : regular pattern ≠ '*' :: rest := by
  fun_cases regular pattern with
  | case4 char tail => exact escape_ne (by decide) (by decide) _ _ _
  | _ => simp

theorem regular_ne_dot {pattern : List Char} (one : ∀ rest, pattern ≠ '_' :: rest)
    (many : ∀ rest, pattern ≠ '%' :: rest) (rest : List Char) : regular pattern ≠ '.' :: rest := by
  fun_cases regular pattern with
  | case2 tail => exact absurd rfl (many tail)
  | case3 tail => exact absurd rfl (one tail)
  | case4 char tail => exact escape_ne (by decide) (by decide) _ _ _
  | _ => simp

/-- The pattern with its characters escaped and its percent signs replaced. -/
def escaped (pattern : List Char) : List Char :=
  pattern.flatMap fun char =>
    if char = '%' then ['.', '*'] else if isMeta char then ['\\', char] else [char]

theorem replaceFrom_escape (pattern : List Char) :
    replaceFrom ['%'] ['.', '*'] 0 (escape pattern) = escaped pattern := by
  rw [replaceFrom_char, escape, escaped, List.flatMap_assoc]
  congr 1
  funext char
  by_cases same : char = '%'
  · subst same
    rfl
  · by_cases special : isMeta char = true <;> simp [same, special]

theorem escaped_cons (char : Char) (rest : List Char) : escaped (char :: rest) =
    (if char = '%' then ['.', '*'] else if isMeta char then ['\\', char] else [char]) ++
      escaped rest := rfl

theorem escaped_ne_star (pattern rest : List Char) : escaped pattern ≠ '*' :: rest := by
  cases pattern with
  | nil => simp [escaped]
  | cons char tail =>
    rw [escaped_cons]
    split
    · simp
    · exact escape_ne (by decide) (by decide) _ _ _

theorem escaped_ne_dot {pattern : List Char} (single : ∀ rest, pattern ≠ '%' :: rest)
    (rest : List Char) : escaped pattern ≠ '.' :: rest := by
  cases pattern with
  | nil => simp [escaped]
  | cons char tail =>
    rw [escaped_cons, if_neg fun percent => single tail (by rw [percent])]
    exact escape_ne (by decide) (by decide) _ _ _

theorem replaceFrom_regular (pattern : List Char) :
    replaceFrom ['_'] ['.'] 0 (replaceFrom ['.', '*', '.', '*'] ['%'] 0 (escaped pattern)) =
      regular pattern := by
  rw [replaceFrom_char]
  fun_induction regular pattern with
  | case1 rest ih =>
    simp [escaped_cons, replaceFrom, ih]
  | case2 rest single ih =>
    have apart : ¬ ['.', '*'] <+: escaped rest := by
      rintro ⟨tail, starts⟩
      exact escaped_ne_dot single _ starts.symm
    simp [escaped_cons, replaceFrom, apart, ih]
  | case3 rest ih =>
    have plain : isMeta '_' = false := by decide
    simp [escaped_cons, replaceFrom, plain, ih]
  | case4 char rest paired percent under ih =>
    have apart : ¬ ['*', '.', '*'] <+: escaped rest := by
      rintro ⟨tail, starts⟩
      exact escaped_ne_star _ _ starts.symm
    rw [escaped_cons, if_neg percent]
    by_cases special : isMeta char = true <;>
      simp [replaceFrom, if_neg under, special, apart, ih]
  | case5 => rfl

/-- The expression after the last replacement. -/
def final (pattern : List Char) : List Char := replaceFrom ['.', '.'] ['_'] 0 (regular pattern)

theorem replaceFrom_cons {text replacement : List Char} (apart : ¬ text <+: char :: rest) :
    replaceFrom text replacement 0 (char :: rest) = char :: replaceFrom text replacement 0 rest := by
  rw [replaceFrom, if_neg (by simpa using apart)]

theorem final_ne_star (pattern rest : List Char) : final pattern ≠ '*' :: rest := by
  unfold final
  cases shown : regular pattern with
  | nil => simp [replaceFrom]
  | cons char tail =>
    rw [replaceFrom]
    split
    · simp
    · rintro same
      rw [(List.cons.inj same).1] at shown
      exact regular_ne_star _ _ shown

theorem parse_literal (plain : char ≠ '\\') (other : char ≠ '.')
    (single : ∀ tail, rest ≠ '*' :: tail) :
    parse (char :: rest) = (.literal char, false) :: parse rest := by
  rw [parse]
  · intro _ _ same
    exact absurd same plain
  · intro _ _ same
    exact absurd same plain
  · intro _ same
    exact absurd same other
  · exact other
  · exact single

/-- The expression is read item by item. -/
theorem parse_final (pattern : List Char) : parse (final pattern) = translate pattern := by
  have stop : isMeta '.' = true := by decide
  fun_induction translate pattern with
  | case1 rest ih =>
    have shown : final ('.' :: '_' :: rest) = '\\' :: '_' :: final rest := by
      simp [final, regular, replaceFrom, stop]
    rw [shown, parse, ih]
    exact final_ne_star rest
  | case2 rest ih =>
    have shown : final ('.' :: '%' :: '%' :: rest) = '\\' :: '.' :: '%' :: final rest := by
      simp [final, regular, replaceFrom, stop]
    rw [shown, parse, parse_literal (by decide) (by decide) (final_ne_star rest), ih]
    simp
  | case3 rest single ih =>
    have shown : final ('.' :: '%' :: rest) = '\\' :: '_' :: '*' :: final rest := by
      simp [final, regular, replaceFrom, stop]
    rw [shown, parse, ih]
  | case4 rest ih =>
    have shown : final ('_' :: '_' :: rest) = '_' :: final rest := by
      simp [final, regular, replaceFrom]
    rw [shown, parse_literal (by decide) (by decide) (final_ne_star rest), ih]
  | case5 rest ih =>
    have shown : final ('_' :: '%' :: '%' :: rest) = '.' :: '%' :: final rest := by
      simp [final, regular, replaceFrom]
    rw [shown, parse, parse_literal (by decide) (by decide) (final_ne_star rest), ih]
    simp
  | case6 rest single ih =>
    have shown : final ('_' :: '%' :: rest) = '_' :: '*' :: final rest := by
      simp [final, regular, replaceFrom]
    rw [shown, parse, ih] <;> simp
  | case7 rest ih =>
    have shown : final ('%' :: '%' :: rest) = '%' :: final rest := by
      simp [final, regular, replaceFrom]
    rw [shown, parse_literal (by decide) (by decide) (final_ne_star rest), ih]
  | case8 rest single ih =>
    have shown : final ('%' :: rest) = '.' :: '*' :: final rest := by
      simp [final, regular, replaceFrom]
    rw [shown, parse, ih]
  | case9 rest one paired many ih =>
    have apart : ¬ ['.', '.'] <+: '.' :: regular rest := by
      rintro ⟨tail, starts⟩
      exact regular_ne_dot one many _ (List.cons.inj starts).2.symm
    have shown : final ('_' :: rest) = '.' :: final rest := replaceFrom_cons apart
    rw [shown, parse, ih]
    exact final_ne_star rest
  | case10 char rest one _ many _ _ _ _ percent under ih =>
    -- Of these characters only the full stop leaves a dot, escaped.
    have apart : ¬ ['.', '.'] <+: char :: regular rest := by
      rintro ⟨tail, starts⟩
      obtain ⟨same, starts⟩ := List.cons.inj starts
      exact regular_ne_dot (fun rest => one rest same.symm) (fun rest => many rest same.symm) _
        starts.symm
    have shown : final (char :: rest) =
        (if isMeta char then ['\\', char] else [char]) ++ final rest := by
      have opens : regular (char :: rest) =
          (if isMeta char then ['\\', char] else [char]) ++ regular rest := by
        rw [regular]
        · exact fun _ same => absurd same percent
        · exact percent
        · exact under
      rw [final, opens]
      split
      · rw [List.cons_append, replaceFrom_cons (by simp), List.singleton_append,
          replaceFrom_cons apart]
        rfl
      · exact replaceFrom_cons apart
    rw [shown, ← ih]
    split
    · rw [List.cons_append, List.singleton_append, parse]
      exact final_ne_star rest
    · next plain =>
        refine parse_literal ?_ ?_ (final_ne_star rest)
        · rintro rfl
          exact plain (by decide)
        · rintro rfl
          exact plain (by decide)
  | case11 => rfl

theorem isLike_iff (text pattern : String) : isLike text pattern = true ↔
    isMatch (translate pattern.toList) text.toList = true := by
  rw [isLike, expression, ← parse_final, final, ← replaceFrom_regular, ← replaceFrom_escape]
  simp [replace]

/-! ## Stretches -/

/-- Whether an item, repeated or not, stands for a stretch, given the characters that
items stand for. -/
def Spells (covers : Item → Char → Bool) : Item × Bool → List Char → Prop
  | (item, true), stretch => ∀ char ∈ stretch, covers item char = true
  | (item, false), stretch => ∃ char, stretch = [char] ∧ covers item char = true

/-- Wildcards for every character, the line feed included. -/
def Item.admits : Item → Char → Bool
  | .literal char, other => char = other
  | .dot, _ => true

theorem repeats_iff {item : Item} {accepts : List Char → Bool} {text : List Char} :
    repeats item accepts text = true ↔ ∃ stretch rest, stretch ++ rest = text ∧
      (∀ char ∈ stretch, item.covers char = true) ∧ accepts rest = true := by
  induction text with
  | nil => simp [repeats]
  | cons char text ih =>
    simp only [repeats, Bool.or_eq_true, Bool.and_eq_true, ih]
    constructor
    · rintro (here | ⟨covered, stretch, rest, rfl, all, later⟩)
      · exact ⟨[], _, rfl, by simp, here⟩
      · exact ⟨char :: stretch, rest, rfl, List.forall_mem_cons.mpr ⟨covered, all⟩, later⟩
    · rintro ⟨stretch, rest, joined, all, later⟩
      cases stretch with
      | nil =>
        subst joined
        exact .inl later
      | cons first stretch =>
        cases joined
        obtain ⟨covered, all⟩ := List.forall_mem_cons.mp all
        exact .inr ⟨covered, stretch, rest, rfl, all, later⟩

theorem isMatch_iff (items : List (Item × Bool)) (text : List Char) :
    isMatch items text = true ↔ Splits (Spells Item.covers) items text := by
  induction items generalizing text with
  | nil => simp [isMatch, Splits]
  | cons item items ih =>
    obtain ⟨item, repeated⟩ := item
    cases repeated with
    | true => simp only [isMatch, repeats_iff, Splits, Spells, ih]
    | false =>
      simp only [Splits, Spells]
      cases text with
      | nil => simp [isMatch]
      | cons char rest =>
        simp only [isMatch, Bool.and_eq_true, ih]
        constructor
        · rintro ⟨covered, later⟩
          exact ⟨[char], rest, rfl, ⟨char, rfl, covered⟩, later⟩
        · rintro ⟨stretch, tail, joined, ⟨first, rfl, covered⟩, later⟩
          cases joined
          exact ⟨covered, later⟩

/-- The item of a part. -/
def Part.item : Part → Item × Bool
  | .literal char => (.literal char, false)
  | .one => (.dot, false)
  | .many => (.dot, true)

theorem translate_faithful {pattern : List Char} (isFaithful : faithful pattern = true) :
    translate pattern = (parts pattern).map Part.item := by
  fun_induction translate pattern <;> simp_all [faithful, parts, Part.item]

theorem documented_iff : Documented pattern text ↔
    Splits (Spells Item.admits) ((parts pattern.toList).map Part.item) text.toList := by
  have spells (part : Part) (stretch : List Char) :
      part.Spells stretch ↔ Spells Item.admits part.item stretch := by
    cases part <;> simp [Part.Spells, Part.item, Spells, Item.admits]
  unfold Documented
  generalize text.toList = text
  induction parts pattern.toList generalizing text with
  | nil => rfl
  | cons part rest ih => simp only [List.map_cons, Splits, spells, ih]

/-- The items that are not repeated. -/
def fixed (items : List (Item × Bool)) : List Item :=
  items.filterMap fun item => if item.2 then none else some item.1

/-- A character an item stands for. -/
def Item.sample : Item → Char
  | .literal char => char
  | .dot => 'x'

/-- A shortest text that matches. -/
def shortest (items : List (Item × Bool)) : List Char := (fixed items).map Item.sample

@[simp] theorem shortest_nil : shortest [] = [] := rfl

@[simp] theorem shortest_once (item : Item) (items : List (Item × Bool)) :
    shortest ((item, false) :: items) = item.sample :: shortest items := rfl

@[simp] theorem shortest_repeated (item : Item) (items : List (Item × Bool)) :
    shortest ((item, true) :: items) = shortest items := rfl

@[simp] theorem length_shortest (items : List (Item × Bool)) :
    (shortest items).length = (fixed items).length := List.length_map _

theorem splits_shortest (covered : ∀ item, covers item item.sample = true)
    (items : List (Item × Bool)) :
    Splits (Spells covers) items (shortest items) := by
  induction items with
  | nil => rfl
  | cons item items ih =>
    obtain ⟨item, repeated⟩ := item
    cases repeated with
    | true => exact ⟨[], shortest items, rfl, by simp [Spells], ih⟩
    | false => exact ⟨[item.sample], shortest items, rfl, ⟨_, rfl, covered item⟩, ih⟩

/-- A match is at least as long as the shortest, and one of that length fits the items
that are not repeated. -/
theorem forall₂_of_splits {items : List (Item × Bool)} {text : List Char}
    (splits : Splits (Spells covers) items text) :
    (fixed items).length ≤ text.length ∧ (text.length ≤ (fixed items).length →
      List.Forall₂ (fun item char => covers item char = true) (fixed items) text) := by
  induction items generalizing text with
  | nil =>
    cases splits
    exact ⟨le_rfl, fun _ => .nil⟩
  | cons item items ih =>
    obtain ⟨item, repeated⟩ := item
    obtain ⟨stretch, rest, rfl, spells, later⟩ := splits
    obtain ⟨least, fits⟩ := ih later
    cases repeated with
    | true =>
      have skipped : fixed ((item, true) :: items) = fixed items := rfl
      rw [skipped, List.length_append]
      refine ⟨by omega, fun short => ?_⟩
      have none : stretch = [] := List.length_eq_zero_iff.mp (by omega)
      rw [none]
      exact fits (by omega)
    | false =>
      obtain ⟨char, rfl, covered⟩ := spells
      have kept : fixed ((item, false) :: items) = item :: fixed items := rfl
      rw [kept, List.singleton_append, List.length_cons, List.length_cons]
      exact ⟨by omega, fun short => .cons covered (fits (by omega))⟩

/-! ## Line feeds -/

theorem count_shortest_parts (pattern : List Char) :
    (shortest ((parts pattern).map Part.item)).count '\n' = pattern.count '\n' := by
  fun_induction parts pattern <;> simp_all [Part.item, Item.sample, List.count_cons]

theorem count_shortest_translate (pattern : List Char) :
    (shortest (translate pattern)).count '\n' = pattern.count '\n' := by
  fun_induction translate pattern <;> simp_all [Item.sample, List.count_cons]

theorem count_spells {part : Part} {stretch : List Char}
    (spells : Spells Item.admits part.item stretch) :
    (shortest [part.item]).count '\n' ≤ stretch.count '\n' := by
  cases part with
  | literal char =>
    obtain ⟨same, rfl, admitted⟩ := spells
    have isChar : char = same := by simpa [Item.admits] using admitted
    simp [Part.item, Item.sample, isChar]
  | one => simp [Part.item, Item.sample]
  | many => simp [Part.item]

/-- The characters of a stretch that is no line feed too many. -/
theorem spells_covers_iff (part : Part) (stretch : List Char) :
    Spells Item.covers part.item stretch ↔ Spells Item.admits part.item stretch ∧
      stretch.count '\n' ≤ (shortest [part.item]).count '\n' := by
  cases part with
  | literal char =>
    refine ⟨fun spells => ⟨spells, ?_⟩, And.left⟩
    obtain ⟨same, rfl, covered⟩ := spells
    have isChar : char = same := by simpa [Item.covers] using covered
    simp [Part.item, Item.sample, isChar]
  | one =>
    constructor
    · rintro ⟨char, rfl, covered⟩
      have other : char ≠ '\n' := by simpa [Item.covers] using covered
      exact ⟨⟨char, rfl, rfl⟩, by simp [other]⟩
    · rintro ⟨⟨char, rfl, _⟩, few⟩
      refine ⟨char, rfl, ?_⟩
      have other : char ≠ '\n' := by
        rintro rfl
        simp [Part.item, Item.sample] at few
      simpa [Item.covers] using other
  | many =>
    simp only [Part.item, Spells, Item.covers, Item.admits, shortest_repeated, shortest_nil,
      List.count_nil, Nat.le_zero, List.count_eq_zero, implies_true, true_and, ne_eq,
      decide_eq_true_eq]
    exact ⟨fun none within => none _ within rfl, fun none char within isBreak =>
      none (isBreak ▸ within)⟩

theorem shortest_cons (item : Item × Bool) (items : List (Item × Bool)) :
    shortest (item :: items) = shortest [item] ++ shortest items := by
  obtain ⟨item, repeated⟩ := item
  cases repeated <;> rfl

theorem count_splits {parts : List Part} {text : List Char}
    (splits : Splits (Spells Item.admits) (parts.map Part.item) text) :
    (shortest (parts.map Part.item)).count '\n' ≤ text.count '\n' := by
  induction parts generalizing text with
  | nil => simp
  | cons part parts ih =>
    obtain ⟨stretch, rest, rfl, spells, later⟩ := splits
    rw [List.map_cons, shortest_cons, List.count_append, List.count_append]
    exact Nat.add_le_add (count_spells spells) (ih later)

/-- The texts that are matched have no line feeds but those of the pattern. -/
theorem splits_covers_iff (parts : List Part) (text : List Char) :
    Splits (Spells Item.covers) (parts.map Part.item) text ↔
      Splits (Spells Item.admits) (parts.map Part.item) text ∧
        text.count '\n' ≤ (shortest (parts.map Part.item)).count '\n' := by
  induction parts generalizing text with
  | nil =>
    refine ⟨fun splits => ⟨splits, ?_⟩, And.left⟩
    cases splits
    exact le_rfl
  | cons part parts ih =>
    rw [List.map_cons, shortest_cons, List.count_append]
    constructor
    · rintro ⟨stretch, rest, rfl, spells, later⟩
      obtain ⟨spells, few⟩ := (spells_covers_iff part stretch).mp spells
      obtain ⟨later, fewer⟩ := (ih rest).mp later
      rw [List.count_append]
      exact ⟨⟨stretch, rest, rfl, spells, later⟩, Nat.add_le_add few fewer⟩
    · rintro ⟨⟨stretch, rest, rfl, spells, later⟩, few⟩
      rw [List.count_append] at few
      have here := count_spells spells
      have there := count_splits later
      exact ⟨stretch, rest, rfl, (spells_covers_iff part stretch).mpr ⟨spells, by omega⟩,
        (ih rest).mpr ⟨later, by omega⟩⟩

/-! ## The shortest matches -/

/-- The length of the shortest matches of a pattern. -/
def least (pattern : List Char) : Nat := (fixed ((parts pattern).map Part.item)).length

theorem least_under (pattern : List Char) :
    least pattern ≤ least ('_' :: pattern) ∧ least ('_' :: pattern) ≤ least pattern + 1 := by
  induction pattern with
  | nil => decide
  | cons char rest ih =>
    by_cases under : char = '_'
    · subst under
      have paired : least ('_' :: '_' :: rest) = least rest + 1 := by
        simp [least, parts, Part.item, fixed]
      omega
    · have single : least ('_' :: char :: rest) = least (char :: rest) + 1 := by
        simp [least, parts, under, Part.item, fixed]
      omega

theorem length_translate (pattern : List Char) :
    (fixed (translate pattern)).length ≤ least pattern := by
  fun_induction translate pattern with
  | case1 rest ih =>
    have stop : least ('.' :: '_' :: rest) = least ('_' :: rest) + 1 := by
      simp [least, parts, Part.item, fixed]
    have under := (least_under rest).1
    simp only [fixed, List.filterMap_cons, Bool.false_eq_true, ↓reduceIte, List.length_cons] at ih ⊢
    omega
  | case9 rest one paired many ih =>
    have single : least ('_' :: rest) = least rest + 1 := by
      simp [least, parts, Part.item, fixed]
    simp only [fixed, List.filterMap_cons, Bool.false_eq_true, ↓reduceIte, List.length_cons] at ih ⊢
    omega
  | case10 char rest one _ many _ _ _ _ percent under ih =>
    have single : least (char :: rest) = least rest + 1 := by
      simp [least, parts, Part.item, fixed]
    simp only [fixed, List.filterMap_cons, Bool.false_eq_true, ↓reduceIte, List.length_cons] at ih ⊢
    omega
  | _ =>
    simp_all [least, parts, Part.item, fixed] <;> omega

/-- Only a faithful pattern has its shortest match matched item by item. -/
theorem faithful_of_forall₂ {pattern : List Char}
    (fits : List.Forall₂ (fun item char => Item.covers item char = true)
      (fixed (translate pattern)) (shortest ((parts pattern).map Part.item))) :
    faithful pattern = true := by
  fun_induction translate pattern with
  | case1 rest ih =>
    simp [fixed, parts, Part.item, Item.sample, Item.covers] at fits
  | case3 rest | case6 rest =>
    have lengths := fits.length_eq
    have bound := length_translate rest
    simp [fixed, parts, Part.item, Item.sample, least] at lengths bound
    omega
  | _ =>
    simp_all [faithful, fixed, parts, Part.item, Item.sample, Item.covers]

theorem isLike_eq_true_iff (text pattern : String) : isLike text pattern = true ↔
    Splits (Spells Item.covers) (translate pattern.toList) text.toList :=
  (isLike_iff text pattern).trans (isMatch_iff _ _)

/-- A faithful pattern is matched as documented by the texts that have no more line feeds. -/
theorem isLike_faithful (isFaithful : faithful pattern.toList = true) :
    isLike text pattern = true ↔ Documented pattern text ∧ breaks text ≤ breaks pattern := by
  rw [isLike_eq_true_iff, translate_faithful isFaithful, splits_covers_iff, documented_iff,
    count_shortest_parts]
  rfl

/-- A pattern that is not faithful is matched otherwise than documented. -/
theorem exists_not_agrees (unfaithful : faithful pattern.toList ≠ true) :
    ∃ text, breaks text ≤ breaks pattern ∧ ¬ Agrees text pattern := by
  have covered (item : Item) : item.covers item.sample = true := by
    cases item <;> simp [Item.covers, Item.sample]
  have admitted (item : Item) : item.admits item.sample = true := by
    cases item <;> simp [Item.admits, Item.sample]
  have bound := length_translate pattern.toList
  obtain shorter | same := bound.lt_or_eq
  · -- The shortest text that is matched is too short for the pattern.
    refine ⟨String.ofList (shortest (translate pattern.toList)), ?_, fun agrees => ?_⟩
    · simp only [breaks, String.toList_ofList, count_shortest_translate, le_refl]
    · have matched : isLike (String.ofList (shortest (translate pattern.toList))) pattern = true := by
        rw [isLike_eq_true_iff, String.toList_ofList]
        exact splits_shortest covered _
      have splits := documented_iff.mp ((agrees_iff.mp agrees).mp matched)
      have long := (forall₂_of_splits splits).1
      rw [String.toList_ofList, length_shortest] at long
      exact absurd shorter (by rw [least]; omega)
  · -- The shortest text of the pattern is as long, and has another character.
    refine ⟨String.ofList (shortest ((parts pattern.toList).map Part.item)), ?_, fun agrees => ?_⟩
    · simp only [breaks, String.toList_ofList, count_shortest_parts, le_refl]
    · have documented : Documented pattern
          (String.ofList (shortest ((parts pattern.toList).map Part.item))) := by
        rw [documented_iff, String.toList_ofList]
        exact splits_shortest admitted _
      have splits := (isLike_eq_true_iff _ _).mp ((agrees_iff.mp agrees).mpr documented)
      rw [String.toList_ofList] at splits
      exact unfaithful (faithful_of_forall₂ ((forall₂_of_splits splits).2
        (by rw [length_shortest, same, least])))

end Radb.Sql.Like
