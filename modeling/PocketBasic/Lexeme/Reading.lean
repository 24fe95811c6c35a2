import PocketBasic.Lexeme.Basic

/-! Readings: what a lexeme means, whatever it is spelled with. Two lines read the same when their
readings agree one by one. -/

namespace PocketBasic

structure Reading where
  kind : Token.Kind
  text : List Char
deriving DecidableEq, Repr

namespace Lexeme

def keyword? (table : Keyword.Table) (lexeme : Lexeme) : Option Keyword :=
  if lexeme.kind = .keyword then table.lookup? lexeme.text else none

/-- A keyword means its name, however it is spelled, and the blanks in front of a comment mean
nothing. Everything else means what it says. -/
def reading (table : Keyword.Table) (lexeme : Lexeme) : Reading where
  kind := lexeme.kind
  text :=
    match lexeme.kind with
    | .keyword => (lexeme.keyword? table).elim lexeme.text Keyword.name
    | .comment => Text.trimLeft lexeme.text
    | _ => lexeme.text

end Lexeme

def Reading.ofText (table : Keyword.Table) (text : List Char) : List Reading :=
  (Lexeme.ofText table text).map (·.reading table)

/-- The first position at which two lists differ, if only because one of them ends there. -/
def firstDifference? {α : Type} [DecidableEq α] : List α → List α → Option Nat
  | [], [] => none
  | a :: as, b :: bs => if a = b then (firstDifference? as bs).map (· + 1) else some 0
  | _, _ => some 0

theorem firstDifference?_eq_none {α : Type} [DecidableEq α] {as bs : List α} :
    firstDifference? as bs = none ↔ as = bs := by
  fun_induction firstDifference? as bs with
  | case1 => simp
  | case2 => simp_all
  | case3 => simp_all
  | case4 as bs notNil notCons =>
    cases as with
    | nil =>
      cases bs with
      | nil => exact absurd rfl (notNil rfl)
      | cons => simp
    | cons a as =>
      cases bs with
      | nil => simp
      | cons b bs => exact (notCons a as b bs rfl rfl).elim

end PocketBasic
