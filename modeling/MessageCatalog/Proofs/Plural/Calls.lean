import Mathlib.Logic.Function.Iterate
import MessageCatalog.Proofs.Plural.Correspondence

/-! Readers change their lexers by calls for the next token only, also after failures. -/
namespace MessageCatalog.Plural

namespace Lexer

def afterCalls (l : Lexer) (calls : Nat) : Lexer := (fun l : Lexer => l.next.2)^[calls] l

theorem afterCalls_succ (l : Lexer) (calls : Nat) :
    l.afterCalls (calls + 1) = (l.afterCalls calls).next.2 :=
  Function.iterate_succ_apply' _ calls l

def Reaches (l m : Lexer) : Prop := ∃ calls, m = l.afterCalls calls

theorem Reaches.next {l m : Lexer} (h : l.Reaches m) : l.Reaches m.next.2 := by
  obtain ⟨calls, rfl⟩ := h
  exact ⟨calls + 1, (l.afterCalls_succ calls).symm⟩

end Lexer

section Readings

variable {α : Type} {l : Lexer} {p : Place}

/-- Calls lead to the lexer at which the reading ends. -/
def Calls (l : Lexer) : Except Stop (α × Place) → Prop
  | .ok (_, p) => l.Reaches p.lexer
  | .error stop => l.Reaches stop.place.lexer

theorem correspondence_reaches (l : Lexer) :
    Correspondence (fun p q => p = q ∧ l.Reaches p.lexer)
      (fun s t => s = t ∧ l.Reaches s.place.lexer) where
  current := fun ⟨same, _⟩ => congrArg Place.current same
  advance := by
    rintro p q ⟨rfl, reached⟩ levels
    have next := reached.next
    unfold Place.advance
    cases call : p.lexer.next with
    | mk answer after =>
      rw [call] at next
      cases answer with
      | ok token => exact .read ⟨rfl, next⟩
      | error cause => exact .stopped ⟨rfl, next⟩
  refuse := by
    rintro p q - m n ⟨rfl, reached⟩ levels wanted
    exact ⟨rfl, reached⟩
  tooDeep := by
    rintro p q ⟨rfl, reached⟩
    exact ⟨rfl, reached⟩

theorem calls_readExpr (h : l.Reaches p.lexer) (levels power : Nat) :
    Calls l (readExpr levels power p) := by
  have alike := (correspondence_reaches l).alike_readExpr ⟨rfl, h⟩ levels power
  cases reading : readExpr levels power p with
  | ok result =>
    rw [reading] at alike
    cases alike with
    | read along => exact along.2
  | error stop =>
    rw [reading] at alike
    cases alike with
    | stopped along => exact along.2

end Readings

namespace Reader

variable {l : Lexer} {r : Reader}

def afterExpressions (r : Reader) (powers : List Nat) : Reader :=
  powers.foldl (fun r power => (r.expression power).2) r

theorem reaches_ofText {text : List Char} (h : ofText text = .ok r) :
    (Lexer.ofText text).Reaches r.place.lexer := by
  unfold ofText at h
  split at h
  next token lexer call =>
    cases h
    exact ⟨1, (congrArg Prod.snd call).symm⟩
  next => cases h

theorem reaches_expression (h : l.Reaches r.place.lexer) (power : Nat) :
    l.Reaches (r.expression power).2.place.lexer := by
  have calls := calls_readExpr h r.levels power
  unfold expression
  cases reading : readExpr r.levels power r.place with
  | ok result =>
    rw [reading] at calls
    exact calls
  | error stop =>
    rw [reading] at calls
    exact calls

theorem reaches_afterExpressions (h : l.Reaches r.place.lexer) (powers : List Nat) :
    l.Reaches (r.afterExpressions powers).place.lexer := by
  induction powers generalizing r with
  | nil => exact h
  | cons power powers ih => exact ih (reaches_expression h power)

end Reader
end MessageCatalog.Plural
