import Mathlib.Data.List.Count

/-! JSON arrays as texts, given the texts of their elements. -/
namespace Hotstuff
namespace Library
namespace JsonArray

def Blank (t : List Char) : Prop := ∀ c ∈ t, c ∈ [' ', '\t', '\n', '\r']

inductive Elements : List (List Char) → List Char → Prop where
  | last {e l r : List Char} (hl : Blank l) (hr : Blank r) : Elements [e] (l ++ e ++ r)
  | more {e l r t : List Char} {es : List (List Char)} (hl : Blank l) (hr : Blank r) (h : Elements es t) :
      Elements (e :: es) (l ++ e ++ r ++ ',' :: t)

/-- The text is an array of the given elements. -/
inductive IsArray : List (List Char) → List Char → Prop where
  | empty {l t r : List Char} (hl : Blank l) (ht : Blank t) (hr : Blank r) :
      IsArray [] (l ++ '[' :: t ++ ']' :: r)
  | elements {l t r : List Char} {es : List (List Char)} (hl : Blank l) (h : Elements es t) (hr : Blank r) :
      IsArray es (l ++ '[' :: t ++ ']' :: r)

theorem blank_newline : Blank ['\n'] := by simp [Blank]

theorem Blank.commas {t : List Char} (h : Blank t) : t.count ',' = 0 := by
  rw [List.count_eq_zero]
  intro hmem
  simpa using h _ hmem

def commas (es : List (List Char)) : Nat := es.flatten.count ','

theorem Elements.commas {es : List (List Char)} {t : List Char} (h : Elements es t) :
    t.count ',' + 1 = JsonArray.commas es + es.length := by
  induction h with
  | last hl hr => simp [JsonArray.commas,hl.commas,hr.commas]
  | more hl hr _ ih =>
    simp only [JsonArray.commas,List.count_append,List.count_cons_self,hl.commas,hr.commas,List.flatten_cons,
      List.length_cons] at ih ⊢
    omega

/-- A comma stands between two elements and nowhere else outside of them. -/
theorem IsArray.commas {es : List (List Char)} {t : List Char} (h : IsArray es t) :
    t.count ',' = JsonArray.commas es + (es.length - 1) := by
  cases h with
  | empty hl ht hr => simp [JsonArray.commas,hl.commas,ht.commas,hr.commas]
  | @elements l t r _ hl h hr =>
    have hcommas := h.commas
    have hpos : 0 < es.length := by cases h <;> simp
    simp only [List.count_append,List.count_cons,hl.commas,hr.commas]
    simp
    omega

def lines : List (List Char) → List Char
  | [] => []
  | e :: es => e ++ es.flatMap fun e => [',', '\n'] ++ e

private theorem elements_lines (e : List Char) (es : List (List Char)) :
    Elements (e :: es) (['\n'] ++ lines (e :: es) ++ ['\n']) := by
  induction es generalizing e with
  | nil => simpa [lines] using Elements.last blank_newline blank_newline
  | cons e' es ih =>
    have h := Elements.more (e := e) (r := []) blank_newline (by simp [Blank]) (ih e')
    simpa [lines] using h

theorem isArray_lines (es : List (List Char)) : IsArray es (['[', '\n'] ++ lines es ++ ['\n', ']']) := by
  have hnil : Blank [] := by simp [Blank]
  cases es with
  | nil => exact .empty (t := ['\n', '\n']) hnil (by simp [Blank]) hnil
  | cons e es => simpa using IsArray.elements hnil (elements_lines e es) hnil

theorem commas_lines (es : List (List Char)) : (lines es).count ',' = commas es + (es.length - 1) := by
  cases es with
  | nil => rfl
  | cons e es =>
    have hflat : (es.flatMap fun e => [',', '\n'] ++ e).count ',' = commas es + es.length := by
      induction es with
      | nil => rfl
      | cons e es ih =>
        have hsep : List.count ',' [',', '\n'] = 1 := by decide
        rw [List.flatMap_cons,List.count_append,ih,List.count_append,commas,commas,List.flatten_cons,
          List.count_append,List.length_cons]
        omega
    rw [lines,List.count_append,hflat,commas,commas,List.flatten_cons,List.count_append,List.length_cons]
    omega

end JsonArray
end Library
end Hotstuff
