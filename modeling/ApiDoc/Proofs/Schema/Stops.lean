import ApiDoc.Proofs.Scan.Reading
import ApiDoc.Schema.Extent
import Mathlib.Data.List.Infix

/-!
# Where readers of schemas stop

A reader of schemas leaves the end of what it was given, and so it does when it
has to stop (`Keeps`). A complaint fits the bytes at which it is made: it is
about the first of them, or it says that there are none.

* **Readers** (`keeps_quoted` to `keeps_body`): one lemma for each reader.
* **Faults** (`extent_fault`): so the offset of a fault is that of the byte it
  is about. If the bytes ran out, it is that of the last one.
-/

namespace ApiDoc

/-- A text that tells of no invalid byte. -/
def Reticent (text : String) : Prop :=
  ∀ more, text ≠ "invalid character \"" ++ more

/-- What a complaint says of the bytes at which it is made. -/
def Complaint.Fits (bytes : List UInt8) : Complaint → Prop
  | invalidByte b _ _ => ∃ tail, bytes = b :: tail
  | endOfFile _ => bytes = []
  | plain text => bytes ≠ [] ∧ Reticent text

/-- The first letter tells. -/
theorem reticent_of_head {text : String} (h : text.toList.head? ≠ some 'i') : Reticent text := by
  rintro more rfl
  rw [String.toList_append] at h
  exact h rfl

theorem reticent_append {front : String} {first : Char} (h : front.toList.head? = some first)
    (hfirst : first ≠ 'i') (more : String) : Reticent (front ++ more) := by
  refine reticent_of_head ?_
  rw [String.toList_append, List.head?_append, h, Option.some_or]
  exact fun heq => hfirst (Option.some.inj heq)

namespace Schema

/-- What is left, and what a reader stops at, is the end of `bytes`. -/
def Keeps (bytes : List UInt8) : Except Stop (List UInt8) → Prop
  | .ok rest => rest <:+ bytes
  | .error stop => stop.rest <:+ bytes ∧ stop.complaint.Fits stop.rest

variable {bytes behind rest : List UInt8} {result : Except Stop (List UInt8)} {b : UInt8}

namespace Keeps

theorem trans (h : Keeps behind result) (k : behind <:+ bytes) : Keeps bytes result := by
  cases result with
  | ok rest => exact List.IsSuffix.trans h k
  | error stop => exact ⟨h.1.trans k, h.2⟩

theorem cons (h : Keeps bytes result) (b : UInt8) : Keeps (b :: bytes) result :=
  h.trans (List.suffix_cons b bytes)

/-- The bytes ran out. -/
theorem ended (bytes : List UInt8) (expected : String) :
    Keeps bytes (.error ⟨.endOfFile expected, []⟩) :=
  ⟨List.nil_suffix, rfl⟩

/-- The next byte cannot stand here. -/
theorem invalid (b : UInt8) (tail : List UInt8) (place expected : String) :
    Keeps (b :: tail) (.error ⟨.invalidByte b place expected, b :: tail⟩) :=
  ⟨List.suffix_refl _, tail, rfl⟩

end Keeps

/-! ## Readers -/

theorem keeps_quoted {d : Delimiter} (hd : Reticent d.unterminated) (escaped : Bool)
    (bytes : List UInt8) : Keeps bytes (quoted d escaped bytes) := by
  fun_induction quoted d escaped bytes with
  | case1 => exact .ended _ _
  | case2 b tail ih => exact ih.cons b
  | case3 => exact ⟨List.suffix_refl _, List.cons_ne_nil _ _, hd⟩
  | case4 tail _ ih => exact ih.cons _
  | case5 tail => exact List.suffix_cons _ tail
  | case6 b tail _ _ _ ih => exact ih.cons b

theorem keeps_string (bytes : List UInt8) : Keeps bytes (quoted .string false bytes) :=
  keeps_quoted (reticent_of_head (by decide)) false bytes

theorem keeps_comment (bytes : List UInt8) : Keeps bytes (comment bytes) := by
  unfold comment
  split
  · rename_i rest hclose
    obtain ⟨inner, rfl, -⟩ := Comment.afterClose?_split hclose
    exact ⟨inner ++ [Byte.hash, Byte.slash], List.append_assoc _ _ _⟩
  · exact .ended _ _

theorem keeps_rules (depth : Nat) (bytes : List UInt8) : Keeps bytes (rules depth bytes) := by
  fun_induction rules depth bytes with
  | case1 => exact .ended _ _
  | case2 _ tail ih => exact ih.cons _
  | case3 tail => exact List.suffix_cons _ tail
  | case4 tail _ _ ih => exact ih.cons _
  | case5 depth tail behind hq _ _ ih =>
    have hstring := keeps_string tail
    rw [hq] at hstring
    exact (ih.trans hstring).cons _
  | case6 depth tail stop hq =>
    have hstring := keeps_string tail
    rw [hq] at hstring
    exact hstring.cons _
  | case7 _ b tail _ _ _ ih => exact ih.cons b

theorem toLineEnd_suffix (bytes : List UInt8) : Comment.toLineEnd bytes <:+ bytes :=
  List.dropWhile_suffix _

theorem keeps_note (bytes : List UInt8) : Keeps bytes (note bytes) := by
  have hblanks : bytes.dropWhile Byte.isBlank <:+ bytes := List.dropWhile_suffix _
  unfold note
  split
  · exact List.nil_suffix
  · rename_i b tail heq
    rw [heq] at hblanks
    split
    · have hrules := keeps_rules 0 tail
      cases hr : rules 0 tail with
      | ok behind =>
        rw [hr] at hrules
        exact ((toLineEnd_suffix behind).trans hrules).trans ((List.suffix_cons b tail).trans hblanks)
      | error stop =>
        rw [hr] at hrules
        exact (hrules.cons b).trans hblanks
    · exact (toLineEnd_suffix _).trans hblanks

theorem keeps_remark? (h : remark? bytes = some result) : Keeps bytes result := by
  unfold remark? at h
  split at h
  · cases h
  · split at h
    · cases h
      exact List.nil_suffix
    · cases h
  · rename_i a b tail
    split at h
    · cases h
      exact (toLineEnd_suffix _).trans (List.suffix_cons a _)
    · split at h
      · cases h
        exact ((keeps_note tail).cons b).cons a
      · split at h
        · cases h
          exact ((keeps_comment tail).cons b).cons a
        · cases h

theorem keeps_trivia (bytes : List UInt8) : Keeps bytes (trivia bytes) := by
  fun_induction trivia bytes with
  | case1 => exact List.suffix_refl _
  | case2 b tail _ ih => exact ih.cons b
  | case3 b tail _ behind hr ih =>
    have hremark : behind <:+ b :: tail := keeps_remark? hr
    exact ih.trans hremark
  | case4 b tail _ stop hr => exact keeps_remark? hr
  | case5 => exact List.suffix_refl _

theorem keeps_seek (closers bytes : List UInt8) : Keeps bytes (seek closers bytes) := by
  cases closers with
  | nil => exact List.suffix_refl _
  | cons closer outer => exact keeps_trivia bytes

theorem keeps_token (closers : List UInt8) (b : UInt8) (rest : List UInt8) :
    Keeps (b :: rest) ((token closers b rest).map (·.2)) := by
  have hrest : rest <:+ b :: rest := List.suffix_cons b rest
  unfold token
  split
  · exact hrest
  · split
    · exact hrest
    · split
      · exact hrest
      · split
        · exact hrest
        · split
          · have hstring := keeps_string rest
            cases hq : quoted .string false rest with
            | ok behind =>
              rw [hq] at hstring
              exact hstring.cons b
            | error stop =>
              rw [hq] at hstring
              exact hstring.cons b
          · split
            · exact (List.dropWhile_suffix _).trans hrest
            · cases closers with
              | nil => exact .invalid b rest _ _
              | cons closer outer => exact .invalid b rest _ _

theorem keeps_value (closers bytes : List UInt8) : Keeps bytes (value closers bytes) := by
  have hsought : ∀ {closers bytes result}, seek closers bytes = result → Keeps bytes result := by
    rintro closers bytes result rfl
    exact keeps_seek closers bytes
  have htaken : ∀ {closers b rest result}, token closers b rest = result →
      Keeps (b :: rest) (result.map (·.2)) := by
    rintro closers b rest result rfl
    exact keeps_token closers b rest
  fun_induction value closers bytes with
  | case1 closers bytes stop hs => exact hsought hs
  | case2 => exact .ended _ _
  | case3 closers bytes b tail hs stop ht => exact (htaken ht).trans (hsought hs)
  | case4 closers bytes b tail hs behind ht => exact (htaken ht).trans (hsought hs)
  | case5 closers bytes b tail hs closer outer behind ht ih =>
    exact (ih.trans (htaken ht)).trans (hsought hs)

theorem keeps_regex (bytes : List UInt8) : Keeps bytes (regex bytes) := by
  unfold regex
  split
  · exact .ended _ _
  · rename_i b tail
    split
    · exact (keeps_quoted (reticent_of_head (by decide)) false tail).cons b
    · exact .invalid b tail _ _

theorem keeps_trailing (bytes : List UInt8) : Keeps bytes (trailing bytes) := by
  have hblanks : ∀ {bytes b tail}, bytes.dropWhile Byte.isBlank = b :: tail →
      b :: tail <:+ bytes := by
    intro bytes b tail h
    rw [← h]
    exact List.dropWhile_suffix _
  fun_induction trailing bytes with
  | case1 => exact List.suffix_refl _
  | case2 => exact List.suffix_refl _
  | case3 bytes b tail hb _ behind hr ih =>
    have hremark : behind <:+ b :: tail := keeps_remark? hr
    exact ih.trans (hremark.trans (hblanks hb))
  | case4 bytes b tail hb _ stop hr => exact (keeps_remark? hr).trans (hblanks hb)
  | case5 bytes b tail hb => exact (Keeps.invalid b tail _ _).trans (hblanks hb)

theorem keeps_body (grammar : Grammar) (bytes : List UInt8) : Keeps bytes (body grammar bytes) := by
  have hbare : Keeps bytes (bare grammar bytes) := by
    cases grammar with
    | jsight => exact keeps_value [] bytes
    | regex => exact keeps_regex bytes
  unfold body
  split
  · rename_i rest hrest
    rw [hrest] at hbare
    exact (keeps_trailing rest).trans hbare
  · rename_i stop hstop
    rw [hstop] at hbare
    exact hbare

/-! ## Faults -/

/-- What a fault says of the bytes of a body. -/
def Fault.Marks (fault : Fault) (bytes : List UInt8) : Prop :=
  match fault.complaint with
  | .invalidByte b _ _ => bytes[fault.offset]? = some b
  | .endOfFile _ => fault.offset + 1 = bytes.length
  | .plain text => Reticent text

/-- The offset is that of what could not be read, or of the last byte. -/
theorem offset_fault (front : List UInt8) (stop : Stop) :
    (stop.fault (front ++ stop.rest).length).offset
      = min front.length (front.length + stop.rest.length - 1) := by
  rw [Stop.fault, List.length_append, Nat.add_sub_cancel]

theorem marks_fault {front : List UInt8} {stop : Stop} (hne : front ++ stop.rest ≠ [])
    (h : stop.complaint.Fits stop.rest) :
    (stop.fault (front ++ stop.rest).length).Marks (front ++ stop.rest) := by
  have hoffset := offset_fault front stop
  obtain ⟨complaint, rest⟩ := stop
  cases complaint with
  | invalidByte b place expected =>
    obtain ⟨tail, rfl⟩ := h
    have hfirst : min front.length (front.length + (b :: tail).length - 1) = front.length :=
      Nat.min_eq_left (Nat.le_add_right _ _)
    show (front ++ b :: tail)[_]? = some b
    rw [hoffset.trans hfirst, List.getElem?_append_right (Nat.le_refl _), Nat.sub_self]
    rfl
  | endOfFile expected =>
    obtain rfl : rest = [] := h
    rw [List.append_nil] at hne
    have hpos := List.length_pos_iff.mpr hne
    have hlast : min front.length (front.length + 0 - 1) + 1 = front.length := by omega
    show Fault.offset _ + 1 = (front ++ []).length
    rw [hoffset, List.append_nil]
    exact hlast
  | plain text => exact h.2

/-- A fault is about a byte of the body. -/
theorem extent_fault {grammar : Grammar} {fault : Fault} (hne : bytes ≠ [])
    (h : extent grammar bytes = .error fault) :
    fault.offset < bytes.length ∧ fault.Marks bytes := by
  have hkeeps := keeps_body grammar bytes
  unfold extent at h
  split at h
  · cases h
  · rename_i stop hstop
    cases h
    rw [hstop] at hkeeps
    obtain ⟨⟨front, rfl⟩, hfits⟩ := hkeeps
    refine ⟨?_, marks_fault hne hfits⟩
    have hpos := List.length_pos_iff.mpr hne
    rw [List.length_append] at hpos
    rw [offset_fault, List.length_append]
    omega

end Schema

end ApiDoc
