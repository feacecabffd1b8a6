import Mathlib.Data.List.Basic
import QueryFilter.Proofs.Transcript

/-!
Regular expressions, and what the patterns made of literals match. A pattern is
a list of signs: the characters that stand for themselves, among them those
behind a backslash, and the marks, which are alternatives, groups, sets,
repetitions, anchors and the wildcard. A literal becomes a pattern without any
mark, so it is found where it stands and nowhere else.
-/

namespace QueryFilter

namespace Pattern

/-! ### Regular expressions -/

/-- A character of a pattern that stands for itself, or one with a meaning. -/
inductive Sign where
  | char (c : Char)
  | mark (c : Char)
  deriving DecidableEq

/-- Characters that mean something unless a backslash stands before them. -/
def isMark (c : Char) : Bool :=
  c == '\\' || c == '^' || c == '$' || c == '.' || c == '|' || c == '?' || c == '*' || c == '+' ||
    c == '(' || c == ')' || c == '[' || c == ']' || c == '\x7b' || c == '\x7d'

/-- The signs of a pattern. A backslash quotes the next character, so it cannot
be the last. -/
def signs? : List Char → Option (List Sign)
  | [] => some []
  | '\\' :: c :: rest => (signs? rest).map (.char c :: ·)
  | ['\\'] => none
  | c :: rest => (signs? rest).map ((if isMark c then .mark c else .char c) :: ·)

inductive Regex where
  | empty
  | char (c : Char)
  | any
  | oneOf (members : Char → Prop)
  | start
  | stop
  | seq (first second : Regex)
  | alt (first second : Regex)
  | repeated (least : Nat) (most : Option Nat) (part : Regex)

/-- `r.Takes before taken after`: between what stands before and after it, `r`
matches what is taken. -/
inductive Regex.Takes : Regex → List Char → List Char → List Char → Prop where
  | empty {before after : List Char} : Takes .empty before [] after
  | char {before after : List Char} (c : Char) : Takes (.char c) before [c] after
  | any {before after : List Char} (c : Char) : Takes .any before [c] after
  | oneOf {before after : List Char} {members : Char → Prop} {c : Char} :
      members c → Takes (.oneOf members) before [c] after
  | start {after : List Char} : Takes .start [] [] after
  | stop {before : List Char} : Takes .stop before [] []
  | seq {first second : Regex} {before u v after : List Char} :
      Takes first before u (v ++ after) → Takes second (before ++ u) v after →
      Takes (.seq first second) before (u ++ v) after
  | altLeft {first second : Regex} {before u after : List Char} :
      Takes first before u after → Takes (.alt first second) before u after
  | altRight {first second : Regex} {before u after : List Char} :
      Takes second before u after → Takes (.alt first second) before u after
  | enough {most : Option Nat} {part : Regex} {before after : List Char} :
      Takes (.repeated 0 most part) before [] after
  | again {least : Nat} {most : Option Nat} {part : Regex} {before u v after : List Char} :
      most ≠ some 0 → Takes part before u (v ++ after) →
      Takes (.repeated (least - 1) (most.map (· - 1)) part) (before ++ u) v after →
      Takes (.repeated least most part) before (u ++ v) after

/-! ### How patterns are read -/

/-- How often something is repeated. -/
inductive Count : List Sign → Nat → Option Nat → Prop where
  | star : Count [.mark '*'] 0 none
  | plus : Count [.mark '+'] 1 none
  | optional : Count [.mark '?'] 0 (some 1)
  | exactly (n : Nat) :
      Count (.mark '\x7b' :: (toString n).toList.map .char ++ [.mark '\x7d']) n (some n)
  | atLeast (n : Nat) :
      Count (.mark '\x7b' :: (toString n).toList.map .char ++ [.char ',', .mark '\x7d']) n none
  | between (n m : Nat) :
      Count (.mark '\x7b' :: (toString n).toList.map .char ++ .char ',' ::
        (toString m).toList.map .char ++ [.mark '\x7d']) n (some m)

/-- What stands in square brackets: characters and ranges of them. -/
inductive Members : List Sign → (Char → Prop) → Prop where
  | nil : Members [] fun _ => False
  | char {signs : List Sign} {members : Char → Prop} (c : Char) : Members signs members →
      Members (.char c :: signs) fun x => x = c ∨ members x
  | range {signs : List Sign} {members : Char → Prop} (low high : Char) : Members signs members →
      Members (.char low :: .char '-' :: .char high :: signs)
        fun x => (low ≤ x ∧ x ≤ high) ∨ members x

/-- The parts of a pattern, from the one that binds least to the one that binds
most. -/
inductive Level where
  | choice | sequence | piece | atom

/-- Signs that are read as a regular expression. -/
inductive Reads : Level → List Sign → Regex → Prop where
  | single {signs : List Sign} {r : Regex} : Reads .sequence signs r → Reads .choice signs r
  | alt {signs more : List Sign} {first second : Regex} : Reads .sequence signs first →
      Reads .choice more second → Reads .choice (signs ++ .mark '|' :: more) (.alt first second)
  | empty : Reads .sequence [] .empty
  | seq {signs more : List Sign} {first second : Regex} : Reads .piece signs first →
      Reads .sequence more second → Reads .sequence (signs ++ more) (.seq first second)
  | once {signs : List Sign} {r : Regex} : Reads .atom signs r → Reads .piece signs r
  | repeated {signs count : List Sign} {r : Regex} {least : Nat} {most : Option Nat} :
      Reads .atom signs r → Count count least most →
      Reads .piece (signs ++ count) (.repeated least most r)
  | char (c : Char) : Reads .atom [.char c] (.char c)
  | any : Reads .atom [.mark '.'] .any
  | start : Reads .atom [.mark '^'] .start
  | stop : Reads .atom [.mark '$'] .stop
  | group {signs : List Sign} {r : Regex} : Reads .choice signs r →
      Reads .atom (.mark '(' :: signs ++ [.mark ')']) r
  | oneOf {signs : List Sign} {members : Char → Prop} : Members signs members →
      Reads .atom (.mark '[' :: signs ++ [.mark ']']) (.oneOf members)
  | noneOf {signs : List Sign} {members : Char → Prop} : Members signs members →
      Reads .atom (.mark '[' :: .mark '^' :: signs ++ [.mark ']']) (.oneOf fun c => ¬members c)

/-- A pattern is found somewhere in a subject. -/
def Matches (pattern subject : String) : Prop :=
  ∃ signs r before taken after, signs? pattern.toList = some signs ∧ Reads .choice signs r ∧
    subject.toList = before ++ taken ++ after ∧ r.Takes before taken after

/-! ### Patterns of characters and anchors -/

/-- A character, or an anchor. -/
def Sign.IsPlain : Sign → Prop
  | .char _ => True
  | .mark c => c = '^' ∨ c = '$'

end Pattern

/-! ### Literals -/

/-- What a literal has to do with a subject that is compared with it. -/
def Method.StringMatch.Finds : Method.StringMatch → String → String → Prop
  | .contains, literal, subject => literal.toList <:+: subject.toList
  | .startsWith, literal, subject => literal.toList <+: subject.toList
  | .endsWith, literal, subject => literal.toList <:+ subject.toList

namespace Compile

open Pattern

end Compile

end QueryFilter
