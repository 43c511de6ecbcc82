import Hotstuff.Library.Bytes

/-! Byte strings behind a length field of fixed width, one after the other, and what is left of them when the stream
is cut. -/
namespace Hotstuff.Library

/-- A byte string behind its length. The length field has four bytes and holds the length modulo 2^32. -/
def frame (b : List UInt8) : List UInt8 := leBytes 4 b.length ++ b

def splitFirst (n : Nat) (src : List UInt8) : Option (List UInt8 × List UInt8) :=
  if n ≤ src.length then some (src.take n,src.drop n) else none

theorem splitFirst_append (a b : List UInt8) : splitFirst a.length (a ++ b) = some (a,b) := by
  rw [splitFirst,if_pos (by simp),List.take_left,List.drop_left]

theorem splitFirst_eq_none {n : Nat} {src : List UInt8} (h : src.length < n) : splitFirst n src = none :=
  if_neg (Nat.not_le.mpr h)

/-- A cut inside a list of parts leaves some of them whole and the next one incomplete. -/
theorem exists_cut {α : Type*} {l : List (List α)} {p : List α} (hp : p <+: l.flatten) (hne : p ≠ l.flatten) :
    ∃ a x b q, l = a ++ x :: b ∧ p = a.flatten ++ q ∧ q <+: x ∧ q ≠ x := by
  induction l generalizing p with
  | nil => exact absurd (List.prefix_nil.mp hp) hne
  | cons x l ih =>
    rw [List.flatten_cons] at hp hne
    rcases List.prefix_or_prefix_of_prefix hp (List.prefix_append x _) with hx | ⟨q,rfl⟩
    · by_cases heq : p = x
      · subst heq
        obtain ⟨a,y,b,q,hl,hq,hqy,hqne⟩ := ih (p := []) (List.nil_prefix) fun hnil => hne (by simp [← hnil])
        refine ⟨p :: a,y,b,q,by rw [hl,List.cons_append],?_,hqy,hqne⟩
        rw [List.flatten_cons,List.append_assoc,← hq,List.append_nil]
      · exact ⟨[],x,l,p,rfl,rfl,hx,heq⟩
    · have hq := (List.prefix_append_right_inj x).mp hp
      obtain ⟨a,y,b,r,hl,hr,hry,hrne⟩ := ih hq fun heq => hne (by rw [heq])
      refine ⟨x :: a,y,b,r,by rw [hl,List.cons_append],?_,hry,hrne⟩
      rw [List.flatten_cons,List.append_assoc,← hr]

/-- Cut off inside, a frame ends in its length field or in its body. -/
theorem prefix_frame {b q : List UInt8} (hq : q <+: frame b) (hne : q ≠ frame b) :
    q.length < 4 ∨ ∃ c, q = leBytes 4 b.length ++ c ∧ c.length < b.length := by
  by_cases hlen : q.length < 4
  · exact .inl hlen
  obtain ⟨c,rfl⟩ : leBytes 4 b.length <+: q :=
    List.prefix_of_prefix_length_le (List.prefix_append _ b) hq (by rw [length_leBytes]; omega)
  have hc : c <+: b := (List.prefix_append_right_inj _).mp hq
  refine .inr ⟨c,rfl,lt_of_le_of_ne hc.length_le fun heq => hne ?_⟩
  rw [frame,hc.eq_of_length heq]

end Hotstuff.Library
