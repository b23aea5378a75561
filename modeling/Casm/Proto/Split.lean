import Casm.Lib.PathText
import Casm.Lib.Utf8

namespace Casm.Proto
open GoPath
open Utf8 (encode repair runes)

/-- The state of the loop of `Parts`: the components that are complete, and the
builder for the next one. -/
structure Builder where
  parts : List (List UInt8)
  b : List UInt8

def Builder.flush (s : Builder) : Builder :=
  if s.b ≠ [] then ⟨s.parts ++ [s.b], []⟩ else s

def Builder.writeRune (s : Builder) (r : Char) : Builder :=
  if r = '/' then s.flush else { s with b := s.b ++ String.utf8EncodeChar r }

/-- `Parts`. The loop ranges over the runes of the ID. -/
def parts (id : List UInt8) : List (List UInt8) :=
  ((runes id).foldl Builder.writeRune ⟨[], []⟩).flush.parts

/-- `Join`. -/
def join (ids : List (List UInt8)) : List UInt8 :=
  joinText ids

/-- `Split`. -/
def splitID (id : List UInt8) : List UInt8 × List UInt8 :=
  match parts id with
  | [] => ([], [])
  | [p] => ([], p)
  | p :: q :: rest => (slash :: join (p :: q :: rest).dropLast, (p :: q :: rest).getLast (List.cons_ne_nil _ _))

/-- The components before they are read as text. -/
def rawParts (id : List UInt8) : List Segment :=
  (split id).filter (· ≠ [])

/-- No component is a step up or a step nowhere. -/
def Plain (id : List UInt8) : Prop :=
  ∀ c ∈ parts id, c ≠ [dot] ∧ c ≠ [dot, dot]

instance (id : List UInt8) : Decidable (Plain id) :=
  inferInstanceAs (Decidable (∀ c ∈ parts id, c ≠ [dot] ∧ c ≠ [dot, dot]))

section Parts

variable {id : List UInt8}

theorem Builder.flush_parts (s : Builder) : s.flush.parts = s.parts ++ [s.b].filter (· ≠ []) := by
  rw [flush]
  by_cases isEmpty : s.b = []
  · simp [isEmpty]
  · simp [isEmpty]

theorem Builder.flush_b (s : Builder) : s.flush.b = [] := by
  rw [flush]
  split
  · rfl
  · rename_i isEmpty
    exact not_not.mp isEmpty

/-- Only the slash itself has the byte of a slash in its encoding. -/
theorem slash_not_mem_utf8EncodeChar {r : Char} (other : r ≠ '/') : slash ∉ String.utf8EncodeChar r := by
  intro member
  exact other (Utf8.utf8EncodeChar_injective (Utf8.eq_singleton_of_mem (by decide) member))

/-- What the loop makes of the rest of an ID: the builder is continued by the first
segment, and each segment that is not empty becomes a component. -/
theorem foldl_writeRune (text : List Char) (s : Builder) :
    (text.foldl Builder.writeRune s).flush.parts =
      s.parts ++ ((split (encode text)).modifyHead (s.b ++ ·)).filter (· ≠ []) := by
  induction text generalizing s with
  | nil =>
    have whole : (split []).modifyHead (s.b ++ ·) = [s.b] := by simp [split]
    exact (Builder.flush_parts s).trans (by rw [← whole]; rfl)
  | cons r rest ih =>
    rw [List.foldl_cons, ih, Builder.writeRune, Utf8.encode_cons]
    by_cases isSlash : r = '/'
    · have whole : String.utf8EncodeChar r ++ encode rest = slash :: encode rest := by
        rw [isSlash]
        rfl
      rw [if_pos isSlash, whole, split_slash, Builder.flush_parts, Builder.flush_b, modifyHead_nil_append,
        List.modifyHead_cons, List.append_nil, List.append_assoc, ← List.filter_append, List.singleton_append]
    · rw [if_neg isSlash, split_append (slash_not_mem_utf8EncodeChar isSlash), List.modifyHead_modifyHead]
      simp only [Function.comp_def, List.append_assoc]

theorem parts_eq (id : List UInt8) : parts id = (split (repair id)).filter (· ≠ []) := by
  rw [parts, foldl_writeRune, modifyHead_nil_append, List.nil_append]
  rfl

/-- The components are those of the path, each of them read as text. -/
theorem parts_eq_map (id : List UInt8) : parts id = (rawParts id).map repair := by
  have sameTest : (fun s : Segment => decide (s ≠ [])) ∘ repair = fun s => decide (s ≠ []) := by
    funext s
    simp [Utf8.repair_eq_nil_iff]
  rw [parts_eq, split, Utf8.splitOn_repair (by decide), List.filter_map, sameTest]
  rfl

theorem nonempty_of_mem_parts {c : Segment} (member : c ∈ parts id) : c ≠ [] := by
  rw [parts_eq, List.mem_filter] at member
  exact of_decide_eq_true member.2

theorem noSlash_of_mem_parts {c : Segment} (member : c ∈ parts id) : slash ∉ c := by
  rw [parts_eq, List.mem_filter] at member
  exact split_noSlash member.1

theorem repair_of_mem_parts {c : Segment} (member : c ∈ parts id) : repair c = c := by
  rw [parts_eq_map] at member
  obtain ⟨raw, -, rfl⟩ := List.mem_map.mp member
  exact Utf8.repair_repair raw

theorem Plain.isName (plain : Plain id) : ∀ c ∈ parts id, IsName c :=
  fun c member =>
    ⟨nonempty_of_mem_parts member, (plain c member).1, (plain c member).2, noSlash_of_mem_parts member⟩

theorem clean_parts (id : List UInt8) : GoPath.clean (parts id) = rooted (repair id) := by
  rw [parts_eq, clean_nonempty, rooted]

end Parts

section Base

variable {id : List UInt8} {front : List Segment} {last : Segment}

theorem splitID_singleton (isParts : parts id = [last]) : splitID id = ([], last) := by
  rw [splitID, isParts]

theorem splitID_concat (isParts : parts id = front ++ [last]) (nonempty : front ≠ []) :
    splitID id = (slash :: join front, last) := by
  rcases front with _ | ⟨p, _ | ⟨q, rest⟩⟩
  · exact absurd rfl nonempty
  · rw [splitID, isParts]
    rfl
  · have whole : p :: q :: rest ++ [last] = p :: q :: (rest ++ [last]) := rfl
    have shorter : (p :: q :: (rest ++ [last])).dropLast = p :: q :: rest := by rw [← whole, List.dropLast_concat]
    rw [splitID, isParts, whole]
    dsimp only
    rw [shorter]
    simp

/-- The components of an ID, as what a base is joined of. -/
structure Joinable (front : List Segment) : Prop where
  nonempty : front ≠ []
  elements : ∀ c ∈ front, c ≠ []
  noSlash : ∀ c ∈ front, slash ∉ c

theorem joinable_of_parts (isParts : parts id = front ++ [last]) (nonempty : front ≠ []) : Joinable front where
  nonempty := nonempty
  elements _ member := nonempty_of_mem_parts (isParts ▸ List.mem_append_left _ member)
  noSlash _ member := noSlash_of_mem_parts (isParts ▸ List.mem_append_left _ member)

theorem Joinable.join_eq (joinable : Joinable front) : join front = cleanText (text front) := by
  have whole : front.filter (· ≠ []) = front :=
    List.filter_eq_self.mpr fun c member => decide_eq_true (joinable.elements c member)
  rw [join, joinText, whole, if_neg joinable.nonempty]

theorem Joinable.split_text (joinable : Joinable front) : split (text front) = front :=
  GoPath.split_text joinable.noSlash joinable.nonempty

theorem Joinable.not_rooted (joinable : Joinable front) : (text front).head? ≠ some slash := by
  obtain ⟨c, rest, rfl⟩ := List.exists_cons_of_ne_nil joinable.nonempty
  obtain ⟨b, s, rfl⟩ := List.exists_cons_of_ne_nil (joinable.elements c List.mem_cons_self)
  have other : b ≠ slash := fun same => joinable.noSlash _ List.mem_cons_self (by simp [same])
  have shape : ∃ t, text ((b :: s) :: rest) = b :: t := ⟨_, text_append_cons [b] s rest⟩
  obtain ⟨t, shape⟩ := shape
  rw [shape, List.head?_cons]
  exact fun same => other (Option.some.inj same)

theorem Joinable.rooted_base (joinable : Joinable front) :
    rooted (slash :: join front) = GoPath.clean front := by
  rw [rooted_slash, joinable.join_eq, rooted_cleanText, rooted, joinable.split_text]

/-- Joining the last component to the base leads where all components lead. -/
theorem Joinable.join_base (joinable : Joinable front) (nonempty : last ≠ []) (noSlash : slash ∉ last) :
    join [slash :: join front, last] = slash :: text (GoPath.clean (front ++ [last])) := by
  have whole : [slash :: join front, last].filter (· ≠ []) = [slash :: join front, last] :=
    List.filter_eq_self.mpr (by simpa using nonempty)
  have pieces : split (text [slash :: join front, last]) = split (slash :: join front) ++ [last] := by
    rw [split_text_flatMap (List.cons_ne_nil _ _)]
    simp [split, List.splitOn_eq_singleton noSlash]
  have below : GoPath.join [slash :: join front, last] = GoPath.clean (front ++ [last]) := by
    rw [GoPath.join, whole, GoPath.clean, List.foldl_concat, ← GoPath.clean, ← joinable.rooted_base, rooted]
    rw [text] at pieces
    rw [pieces, GoPath.clean, List.foldl_concat]
    rfl
  rw [join, joinText_eq (List.head?_cons ..), below]

/-- The components of the base are those it was made of, if each stands for itself. -/
theorem parts_base (isParts : parts id = front ++ [last]) (nonempty : front ≠ []) (plain : Plain id) :
    parts (slash :: join front) = front := by
  have joinable := joinable_of_parts isParts nonempty
  have names : ∀ c ∈ front, IsName c := fun c member => plain.isName c (isParts ▸ List.mem_append_left _ member)
  have itself : join front = text front := by
    have comps : components (text front) = front := by
      rw [components, if_neg joinable.not_rooted, joinable.split_text, relative_of_names names]
      rfl
    rw [joinable.join_eq, cleanText, if_neg joinable.not_rooted, comps, if_neg nonempty]
  have kept : (rawParts (slash :: text front)).map repair = front := by
    have whole : front.filter (· ≠ []) = front :=
      List.filter_eq_self.mpr fun c member => decide_eq_true (joinable.elements c member)
    have segments : rawParts (slash :: text front) = front.filter (· ≠ []) := by
      rw [rawParts, split_slash, joinable.split_text]
      rfl
    rw [segments, whole]
    have texts : ∀ c ∈ front, repair c = c :=
      fun c member => repair_of_mem_parts (isParts ▸ List.mem_append_left _ member)
    rw [List.map_congr_left texts, List.map_id']
  rw [parts_eq_map, itself, kept]

theorem Joinable.length_split_join (joinable : Joinable front) : (split (join front)).length ≤ front.length := by
  have bound := (components_length (text front)).trans (relative_length _)
  rw [joinable.split_text] at bound
  rw [joinable.join_eq, cleanText, if_neg joinable.not_rooted]
  split
  · have one : (split [dot]).length = 1 := rfl
    rw [one]
    exact List.length_pos_iff.mpr joinable.nonempty
  · rename_i nonempty
    rwa [GoPath.split_text (components_noSlash _) nonempty]

/-- The base has fewer components than the ID, whatever they are. -/
theorem length_parts_base_lt (nonempty : parts id ≠ []) : (parts (splitID id).1).length < (parts id).length := by
  obtain ⟨front, last, isParts⟩ : ∃ front last, parts id = front ++ [last] :=
    ⟨_, _, (List.dropLast_concat_getLast nonempty).symm⟩
  rw [isParts, List.length_append, List.length_singleton, Nat.lt_succ_iff]
  by_cases alone : front = []
  · subst alone
    rw [splitID_singleton isParts]
    exact le_rfl
  · have joinable := joinable_of_parts isParts alone
    rw [splitID_concat isParts alone, parts_eq_map, List.length_map, rawParts, split_slash]
    calc (([] :: split (join front)).filter (· ≠ [])).length
        = ((split (join front)).filter (· ≠ [])).length := rfl
      _ ≤ (split (join front)).length := List.length_filter_le ..
      _ ≤ front.length := joinable.length_split_join

end Base

/-- An ID of at least two components is the base and the end that it is split into,
joined. If its components stand for themselves, they are those of the base, and the end. -/
theorem split_rejoins (id : List Char) (two : 2 ≤ (parts (encode id)).length) :
    (parts (encode id)).getLast? = some (splitID (encode id)).2 ∧
      join [(splitID (encode id)).1, (splitID (encode id)).2] = cleanText (slash :: encode id) ∧
      (Plain (encode id) → parts (splitID (encode id)).1 ++ [(splitID (encode id)).2] = parts (encode id)) := by
  have found : parts (encode id) ≠ [] := by
    intro nothing
    rw [nothing] at two
    cases two
  obtain ⟨front, last, isParts⟩ : ∃ front last, parts (encode id) = front ++ [last] :=
    ⟨_, _, (List.dropLast_concat_getLast found).symm⟩
  have nonempty : front ≠ [] := by
    rintro rfl
    rw [isParts] at two
    exact absurd two (by simp)
  have isLast : last ∈ parts (encode id) := isParts ▸ List.mem_append_right _ (List.mem_singleton_self last)
  rw [splitID_concat isParts nonempty]
  refine ⟨?_, ?_, fun plain => ?_⟩
  · rw [isParts, List.getLast?_concat]
  · rw [(joinable_of_parts isParts nonempty).join_base (nonempty_of_mem_parts isLast) (noSlash_of_mem_parts isLast),
      ← isParts, clean_parts, Utf8.repair_encode, cleanText_slash]
  · rw [parts_base isParts nonempty plain, isParts]

theorem split_rejoins_dots :
    2 ≤ (parts (encode ['/', 'a', '/', '.', '.', '/', 'b'])).length ∧
      join [(splitID (encode ['/', 'a', '/', '.', '.', '/', 'b'])).1,
        (splitID (encode ['/', 'a', '/', '.', '.', '/', 'b'])).2] =
        cleanText (slash :: encode ['/', 'a', '/', '.', '.', '/', 'b']) := by
  have two : 2 ≤ (parts (encode ['/', 'a', '/', '.', '.', '/', 'b'])).length := by decide +kernel
  exact ⟨two, (split_rejoins _ two).2.1⟩

end Casm.Proto
