import ClonePrint.Export.Tag
import Mathlib.Data.List.Find

/-!
# Escaped text

Five characters have entities of their own. They are decoded one after the other over the
whole text, and this comes to the same as one pass from left to right. The ampersand stays
escaped until the end, so no step sees an entity that was not there before. A text in which
the five characters are escaped holds no bracket. Without its blanks and decoded it is the
text without its blanks again.
-/
namespace ClonePrint.Text

/-- The characters that have an entity, and what stands behind the ampersand, in the
order in which they are decoded. -/
def entities : List (Char × Text) :=
  [('<', "lt;".toList), ('>', "gt;".toList), ('"', "quot;".toList), ('\'', "apos;".toList),
    ('&', "amp;".toList)]

def escapeCharWith (table : List (Char × Text)) (c : Char) : Text :=
  match table.lookup c with
  | some name => '&' :: name
  | none => [c]

def escapeWith (table : List (Char × Text)) (t : Text) : Text := t.flatMap (escapeCharWith table)

def escape (t : Text) : Text := escapeWith entities t

section replace

variable {name : Text} {c : Char}

theorem replaceEntity_cons_of_ne {x : Char} (h : x ≠ '&') (t : Text) :
    replaceEntity name c (x :: t) = x :: replaceEntity name c t := by
  rw [replaceEntity, if_neg fun hboth => h hboth.1]

theorem replaceEntity_append {front : Text} (h : '&' ∉ front) (t : Text) :
    replaceEntity name c (front ++ t) = front ++ replaceEntity name c t := by
  induction front with
  | nil => rfl
  | cons x front ih =>
      rw [List.mem_cons, not_or] at h
      rw [List.cons_append, replaceEntity_cons_of_ne (Ne.symm h.1), ih h.2, List.cons_append]

theorem replaceEntity_of_isPrefix (t : Text) :
    replaceEntity name c ('&' :: (name ++ t)) = c :: replaceEntity name c t := by
  rw [replaceEntity, if_pos ⟨rfl, by simp⟩, List.drop_left]

end replace

/-- The entity that the text begins with. The first one of the table counts. -/
def entityAt? (table : List (Char × Text)) (t : Text) : Option (Char × Text) :=
  table.find? fun entry => ('&' :: entry.2).isPrefixOf t

/-- Decode the given entities in one pass from left to right. An entity is taken away as a whole,
and what stands for it is not read again. -/
def decodeWith (table : List (Char × Text)) : Text → Text
  | [] => []
  | x :: t =>
      match entityAt? table (x :: t) with
      | some entry => entry.1 :: decodeWith table (t.drop entry.2.length)
      | none => x :: decodeWith table t
termination_by t => t.length
decreasing_by
  · simp only [List.length_drop, List.length_cons]; omega
  · simp

/-- Decode the five entities in one pass. -/
def decodeOnce (t : Text) : Text := decodeWith entities t

section pass

variable {table : List (Char × Text)} {name : Text} {c : Char} {t : Text}

theorem decodeWith_cons {x : Char} (h : entityAt? table (x :: t) = none) :
    decodeWith table (x :: t) = x :: decodeWith table t := by
  rw [decodeWith, h]

theorem decodeWith_entity {entry : Char × Text}
    (h : entityAt? table ('&' :: (entry.2 ++ t)) = some entry) :
    decodeWith table ('&' :: (entry.2 ++ t)) = entry.1 :: decodeWith table t := by
  rw [decodeWith, h]
  simp only [List.drop_left]

theorem entityAt?_cons_of_ne {x : Char} (h : x ≠ '&') (t : Text) :
    entityAt? table (x :: t) = none := by
  refine List.find?_eq_none.2 fun entry _ => ?_
  rw [List.isPrefixOf_cons_cons, beq_false_of_ne (Ne.symm h), Bool.false_and]
  exact Bool.false_ne_true

theorem exists_eq_of_entityAt? {entry : Char × Text} (h : entityAt? table t = some entry) :
    ∃ rest, t = '&' :: (entry.2 ++ rest) := by
  have hstarts := List.find?_some h
  obtain ⟨rest, hrest⟩ := List.isPrefixOf_iff_prefix.1 hstarts
  exact ⟨rest, hrest.symm⟩

theorem isPrefixOf_ampersand (name t : Text) :
    ('&' :: name).isPrefixOf ('&' :: t) = name.isPrefixOf t := by
  rw [List.isPrefixOf_cons_cons, beq_self_eq_true, Bool.true_and]

/-- What a replacement leaves behind does not become part of another name. -/
theorem isPrefixOf_replaceEntity {other : Text} (hother : '&' ∉ other) (hc : c ∉ other)
    (t : Text) : other.isPrefixOf (replaceEntity name c t) = other.isPrefixOf t := by
  induction other generalizing t with
  | nil => rw [List.isPrefixOf_nil_left, List.isPrefixOf_nil_left]
  | cons o other ih =>
      rw [List.mem_cons, not_or] at hother hc
      cases t with
      | nil => rw [replaceEntity]
      | cons x t =>
          rw [replaceEntity]
          split
          · rename_i hentity
            rw [hentity.1, List.isPrefixOf_cons_cons, List.isPrefixOf_cons_cons,
              beq_false_of_ne (Ne.symm hc.1), beq_false_of_ne (Ne.symm hother.1), Bool.false_and,
              Bool.false_and]
          · rw [List.isPrefixOf_cons_cons, List.isPrefixOf_cons_cons, ih hother.2 hc.2]

/-- One entity may be replaced in a pass of its own before the others are decoded. -/
theorem decodeWith_replaceEntity (hplain : ∀ entry ∈ table, '&' ∉ entry.2 ∧ c ∉ '&' :: entry.2)
    (t : Text) :
    decodeWith table (replaceEntity name c t) = decodeWith ((c, name) :: table) t := by
  have hsame (x : Char) (t : Text) :
      entityAt? table (x :: replaceEntity name c t) = entityAt? table (x :: t) := by
    refine List.find?_congr fun entry hentry => ?_
    obtain ⟨hampersand, hc⟩ := hplain entry hentry
    rw [List.isPrefixOf_cons_cons, List.isPrefixOf_cons_cons,
      isPrefixOf_replaceEntity hampersand fun hmem => hc (List.mem_cons_of_mem _ hmem)]
  -- The character that is put in does not begin an entity of the table.
  have hput (t : Text) : entityAt? table (c :: t) = none := by
    refine List.find?_eq_none.2 fun entry hentry => ?_
    rw [List.isPrefixOf_cons_cons, beq_false_of_ne, Bool.false_and]
    · exact Bool.false_ne_true
    · rintro rfl
      exact (hplain entry hentry).2 List.mem_cons_self
  induction t using decodeWith.induct ((c, name) :: table) with
  | case1 => rw [replaceEntity, decodeWith, decodeWith]
  | case2 x t entry hentry ih =>
      obtain ⟨rest, htext⟩ := exists_eq_of_entityAt? hentry
      obtain ⟨rfl, rfl⟩ := List.cons.inj htext
      rw [decodeWith_entity hentry]
      rw [List.drop_left] at ih
      by_cases hname : name.isPrefixOf (entry.2 ++ rest) = true
      · rw [entityAt?, List.find?_cons_of_pos (by rwa [isPrefixOf_ampersand])] at hentry
        obtain rfl := Option.some.inj hentry
        rw [replaceEntity_of_isPrefix, decodeWith_cons (hput _), ih]
      · rw [entityAt?, List.find?_cons_of_neg (by rwa [isPrefixOf_ampersand])] at hentry
        have hampersand := (hplain entry (List.mem_of_find?_eq_some hentry)).1
        have hstill := (hsame '&' (entry.2 ++ rest)).trans hentry
        rw [replaceEntity, if_neg fun hboth => hname hboth.2]
        rw [replaceEntity_append hampersand] at hstill ⊢
        rw [decodeWith_entity hstill, ih]
  | case3 x t hnone ih =>
      have hsplit := List.find?_eq_none.1 hnone
      have hkept : ¬(x = '&' ∧ name.isPrefixOf t = true) := by
        rintro ⟨rfl, hname⟩
        exact hsplit (c, name) List.mem_cons_self (by rwa [isPrefixOf_ampersand])
      have hothers : entityAt? table (x :: t) = none :=
        List.find?_eq_none.2 fun entry hentry => hsplit entry (List.mem_cons_of_mem _ hentry)
      rw [replaceEntity, if_neg hkept, decodeWith_cons ((hsame x t).trans hothers), ih,
        decodeWith_cons hnone]

/-- Entities may be replaced one after the other if none of them stands for a character of a later
one. -/
theorem foldl_replaceEntity (hlater : table.Pairwise fun a b => '&' ∉ b.2 ∧ a.1 ∉ '&' :: b.2)
    (t : Text) :
    table.foldl (fun t entry => replaceEntity entry.2 entry.1 t) t = decodeWith table t := by
  induction table generalizing t with
  | nil =>
      rw [List.foldl_nil]
      induction t with
      | nil => rw [decodeWith]
      | cons x t ih => rw [decodeWith_cons rfl, ← ih]
  | cons entry table ih =>
      obtain ⟨hfirst, hrest⟩ := List.pairwise_cons.1 hlater
      rw [List.foldl_cons, ih hrest, decodeWith_replaceEntity hfirst]

end pass

theorem decodeEntities_eq_decodeOnce (t : Text) : decodeEntities t = decodeOnce t := by
  have hlater : entities.Pairwise fun a b => '&' ∉ b.2 ∧ a.1 ∉ '&' :: b.2 := by decide
  exact foldl_replaceEntity hlater t

example : decodeOnce "&amp;lt;&&gt;&ap&apos;os;&quot".toList = "&lt;&>&ap'os;&quot".toList := by
  decide +kernel

/-- An escaped character is decoded whatever follows. -/
theorem decodeOnce_escapeCharWith (c : Char) (t : Text) :
    decodeOnce (escapeCharWith entities c ++ t) = c :: decodeOnce t := by
  rw [escapeCharWith]
  cases hlookup : entities.lookup c with
  | none =>
      refine decodeWith_cons (entityAt?_cons_of_ne ?_ t)
      rintro rfl
      exact absurd hlookup (by decide)
  | some name =>
      obtain ⟨front, back, htable, -⟩ := List.lookup_eq_some_iff.1 hlookup
      have hmem : (c, name) ∈ entities := htable ▸ List.mem_append_right _ List.mem_cons_self
      have hall : ∀ entry ∈ entities, entityAt? entities ('&' :: (entry.2 ++ t)) = some entry := by
        simp [entities, entityAt?, List.isPrefixOf]
      exact decodeWith_entity (hall _ hmem)

theorem decodeOnce_escape (t : Text) : decodeOnce (escape t) = t := by
  induction t with
  | nil => rw [escape, escapeWith, List.flatMap_nil, decodeOnce, decodeWith]
  | cons c t ih =>
      rw [escape, escapeWith, List.flatMap_cons, decodeOnce_escapeCharWith]
      exact congrArg _ ih

theorem decodeEntities_escape (t : Text) : decodeEntities (escape t) = t := by
  rw [decodeEntities_eq_decodeOnce, decodeOnce_escape]

theorem mem_escapeCharWith {c x : Char} (h : x ∈ escapeCharWith entities c) :
    x = c ∧ entities.lookup c = none ∨ ∃ entry ∈ entities, entry.1 = c ∧ x ∈ '&' :: entry.2 := by
  rw [escapeCharWith] at h
  cases hlookup : entities.lookup c with
  | none =>
      rw [hlookup] at h
      exact .inl ⟨List.mem_singleton.1 h, rfl⟩
  | some name =>
      rw [hlookup] at h
      obtain ⟨front, back, htable, -⟩ := List.lookup_eq_some_iff.1 hlookup
      exact .inr ⟨(c, name), htable ▸ List.mem_append_right _ List.mem_cons_self, rfl, h⟩

theorem not_mem_escape (t : Text) : '<' ∉ escape t := by
  intro hmem
  obtain ⟨c, -, hc⟩ := List.mem_flatMap.1 hmem
  obtain ⟨rfl, hlookup⟩ | ⟨entry, hentry, -, hx⟩ := mem_escapeCharWith hc
  · exact absurd hlookup (by decide)
  · have hplain : ∀ entry ∈ entities, '<' ∉ '&' :: entry.2 := by decide
    exact hplain entry hentry hx

theorem forall_mem_of_all {p : Char → Bool} {t : Text} (h : t.all (fun c => !p c) = true) :
    ∀ c ∈ t, p c = false := by
  simpa using h

theorem not_isBlank_of_mem_entities {entry : Char × Text} (h : entry ∈ entities) :
    isBlank entry.1 = false ∧ ∀ x ∈ '&' :: entry.2, isBlank x = false := by
  have hall : entities.all (fun entry => (entry.1 :: '&' :: entry.2).all fun c => !isBlank c) =
      true := by decide
  obtain ⟨hfirst, hrest⟩ := List.forall_mem_cons.1 (forall_mem_of_all (List.all_eq_true.1 hall _ h))
  exact ⟨hfirst, hrest⟩

theorem stripBlanks_escapeCharWith (c : Char) :
    stripBlanks (escapeCharWith entities c) = escape (stripBlanks [c]) := by
  by_cases hblank : isBlank c = true
  · have hlookup : entities.lookup c = none := by
      refine List.lookup_eq_none_iff.2 fun entry hentry => bne_iff_ne.2 ?_
      rintro rfl
      exact Bool.false_ne_true
        ((not_isBlank_of_mem_entities hentry).1.symm.trans hblank)
    have hnone : stripBlanks [c] = [] := by simp [stripBlanks, hblank]
    rw [escapeCharWith, hlookup]
    simp only [hnone]
    rfl
  · have hself : stripBlanks [c] = [c] := by simp [stripBlanks, hblank]
    have hwhole : stripBlanks (escapeCharWith entities c) = escapeCharWith entities c := by
      refine List.filter_eq_self.2 fun x hx => ?_
      obtain ⟨rfl, -⟩ | ⟨entry, hentry, -, hx⟩ := mem_escapeCharWith hx
      · simp [hblank]
      · rw [(not_isBlank_of_mem_entities hentry).2 x hx]
        rfl
    rw [hwhole, hself, escape, escapeWith, List.flatMap_singleton]

/-- Blanks have no entity, and no entity holds one. -/
theorem stripBlanks_escape (t : Text) : stripBlanks (escape t) = escape (stripBlanks t) := by
  induction t with
  | nil => rfl
  | cons c t ih =>
      have hescape : escape (c :: t) = escapeCharWith entities c ++ escape t := List.flatMap_cons
      rw [hescape, stripBlanks_append, stripBlanks_escapeCharWith, ih, escape, escape, escape,
        escapeWith, escapeWith, escapeWith, ← List.flatMap_append, ← stripBlanks_append,
        List.singleton_append]

theorem decodeEntities_stripBlanks_escape (t : Text) :
    decodeEntities (stripBlanks (escape t)) = stripBlanks t := by
  rw [stripBlanks_escape, decodeEntities_escape]

/-- Entities are decoded as in one pass, whatever the text is. So a text is what its escaped form is
decoded to, and its blanks may be dropped before that. -/
theorem decodeEntities_exact :
    (∀ t, decodeEntities t = decodeOnce t) ∧ (∀ t, decodeEntities (escape t) = t) ∧
      ∀ t, decodeEntities (stripBlanks (escape t)) = stripBlanks t :=
  ⟨decodeEntities_eq_decodeOnce, decodeEntities_escape, decodeEntities_stripBlanks_escape⟩

end ClonePrint.Text
