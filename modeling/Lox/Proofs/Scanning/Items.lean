import Lox.Token.Scan

/-! # The items of a text

The items of a text that starts on some line are those of its first stretch and then those of the rest
(`itemsFrom_cons`). -/

namespace Lox.Scan

/-- What a stretch that ends on this line is among the items. -/
def Verdict.item? (verdict : Verdict) (stretch : List Char) (line : Nat) : Option Item :=
  match verdict with
  | .skipped => none
  | .token kind => some (.ok ⟨kind, String.ofList stretch, line⟩)
  | .error cause => some (.error ⟨cause, line⟩)

/-- The items of a text that starts on this line. -/
def itemsFrom (line : Nat) (cs : List Char) : List Item := (itemsAfter #[] line cs).toList

/-- Items from before a text stay in front of those of the text. -/
theorem itemsAfter_append (before done : Array Item) (line : Nat) (cs : List Char) :
    itemsAfter (before ++ done) line cs = before ++ itemsAfter done line cs := by
  fun_induction itemsAfter done line cs with
  | case1 done line => simp [itemsAfter]
  | case2 done line c cs piece line' hverdict ih =>
    rw [itemsAfter]
    simp only [piece] at hverdict
    simp only [hverdict]
    exact ih
  | case3 done line c cs piece line' kind hverdict ih =>
    rw [itemsAfter]
    simp only [piece] at hverdict
    simp only [hverdict, ← Array.append_push]
    exact ih
  | case4 done line c cs piece line' cause hverdict ih =>
    rw [itemsAfter]
    simp only [piece] at hverdict
    simp only [hverdict, ← Array.append_push]
    exact ih

theorem itemsAfter_toList (done : Array Item) (line : Nat) (cs : List Char) :
    (itemsAfter done line cs).toList = done.toList ++ itemsFrom line cs := by
  have happend := itemsAfter_append done #[] line cs
  rw [Array.append_empty] at happend
  rw [happend, Array.toList_append, itemsFrom]

@[simp] theorem itemsFrom_nil (line : Nat) : itemsFrom line [] = [.ok (.atEnd line)] := by
  rw [itemsFrom, itemsAfter]
  rfl

theorem itemsFrom_cons (line : Nat) (c : Char) (cs : List Char) :
    itemsFrom line (c :: cs) =
      ((cut c cs).verdict.item? (cut c cs).stretch (lineAfter line (cut c cs).stretch)).toList ++
        itemsFrom (lineAfter line (cut c cs).stretch) (cut c cs).rest := by
  rw [itemsFrom, itemsAfter]
  cases hverdict : (cut c cs).verdict <;> simp [itemsAfter_toList, Verdict.item?]

end Lox.Scan
