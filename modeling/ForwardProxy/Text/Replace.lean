/-
ForwardProxy.Text.Replace — replacing the matches of a pattern in a text.

A `Matcher` says which match starts at the front of a text, if any. The
matches of a text are found from the left and do not overlap: `pieces` cuts
the text into them and the elements between. Facts about a replacement go
by the cases of `Matcher.cut_induction`.
-/
import Mathlib.Data.List.Basic
import Mathlib.Data.List.Infix

namespace ForwardProxy.Text

variable {α : Type*}

/-- A match is not empty, and is what the text starts with. -/
structure Matcher (α : Type*) where
  find : List α → Option (List α)
  found : ∀ {text m}, find text = some m → m ≠ [] ∧ m <+: text

inductive Piece (α : Type*) where
  | plain (a : α)
  | hit (m : List α)
  deriving DecidableEq, Repr

def Piece.raw : Piece α → List α
  | .plain a => [a]
  | .hit m => m

def Piece.replaced (f : List α → List α) : Piece α → List α
  | .plain a => [a]
  | .hit m => f m

namespace Matcher

variable (M : Matcher α)

/-- The first `skip` elements belong to a match that has been found. -/
def piecesFrom : Nat → List α → List (Piece α)
  | _, [] => []
  | skip + 1, _ :: text => piecesFrom skip text
  | 0, a :: text =>
    match M.find (a :: text) with
    | some m => .hit m :: piecesFrom (m.length - 1) text
    | none => .plain a :: piecesFrom 0 text

def pieces (text : List α) : List (Piece α) := M.piecesFrom 0 text

/-- The text with each match replaced. -/
def replaceAll (f : List α → List α) (text : List α) : List α :=
  (M.pieces text).flatMap (Piece.replaced f)

theorem piecesFrom_eq (skip : Nat) (text : List α) :
    M.piecesFrom skip text = M.pieces (text.drop skip) := by
  induction text generalizing skip with
  | nil => cases skip <;> rfl
  | cons a text ih =>
    cases skip with
    | zero => rfl
    | succ skip => exact ih skip

@[simp] theorem pieces_nil : M.pieces [] = [] := rfl

theorem pieces_plain {a : α} {text : List α} (h : M.find (a :: text) = none) :
    M.pieces (a :: text) = .plain a :: M.pieces text := by
  rw [pieces, piecesFrom, h]
  rfl

theorem pieces_hit {m rest : List α} (h : M.find (m ++ rest) = some m) :
    M.pieces (m ++ rest) = .hit m :: M.pieces rest := by
  cases m with
  | nil => exact absurd rfl (M.found h).1
  | cons a m =>
    rw [List.cons_append] at h ⊢
    rw [pieces, piecesFrom, h]
    simp only [piecesFrom_eq, List.length_cons, Nat.add_sub_cancel, List.drop_left]

/-- A text is empty, starts with an element outside the matches, or starts
with a match. -/
theorem cut_induction {P : List α → Prop} (nil : P [])
    (plain : ∀ a text, M.find (a :: text) = none → P text → P (a :: text))
    (hit : ∀ m rest, M.find (m ++ rest) = some m → P rest → P (m ++ rest)) (text : List α) :
    P text := by
  induction hlength : text.length using Nat.strong_induction_on generalizing text with
  | _ n ih =>
    cases text with
    | nil => exact nil
    | cons a text =>
      cases hfind : M.find (a :: text) with
      | none => exact plain a text hfind (ih text.length (by simp [← hlength]) text rfl)
      | some m =>
        obtain ⟨hne, rest, hrest⟩ := M.found hfind
        rw [← hrest] at hfind hlength ⊢
        have hpos := List.length_pos_of_ne_nil hne
        rw [List.length_append] at hlength
        exact hit m rest hfind (ih rest.length (by omega) rest rfl)

theorem pieces_raw (text : List α) : (M.pieces text).flatMap Piece.raw = text := by
  induction text using M.cut_induction with
  | nil => rfl
  | plain a text h ih => simp [M.pieces_plain h, Piece.raw, ih]
  | hit m rest h ih => simp [M.pieces_hit h, Piece.raw, ih]

/-- The matches in the pieces have been found. -/
theorem find_of_hit {text m : List α} (h : .hit m ∈ M.pieces text) :
    ∃ rest, M.find (m ++ rest) = some m := by
  induction text using M.cut_induction with
  | nil => simp at h
  | plain a text hfind ih =>
    rw [M.pieces_plain hfind, List.mem_cons] at h
    rcases h with h | h
    · cases h
    · exact ih h
  | hit m' rest hfind ih =>
    rw [M.pieces_hit hfind, List.mem_cons] at h
    rcases h with h | h
    · cases h
      exact ⟨rest, hfind⟩
    · exact ih h

variable (f : List α → List α)

@[simp] theorem replaceAll_nil : M.replaceAll f [] = [] := rfl

theorem replaceAll_plain {a : α} {text : List α} (h : M.find (a :: text) = none) :
    M.replaceAll f (a :: text) = a :: M.replaceAll f text := by
  simp [replaceAll, M.pieces_plain h, Piece.replaced]

theorem replaceAll_hit {m rest : List α} (h : M.find (m ++ rest) = some m) :
    M.replaceAll f (m ++ rest) = f m ++ M.replaceAll f rest := by
  simp [replaceAll, M.pieces_hit h, Piece.replaced]

end Matcher

end ForwardProxy.Text
