import ClonePrint.Proofs.Pieces

/-!
# The strand of the undecided chunks of a file

When everything that is decided ends at a clean boundary, the chunks of a file
that are not decided yet form a strand. In the order of their ids they lie one
behind the other, and where one ends inside an item the next one continues. A
closed chunk can be taken out of the strand, the beginning of a chunk can be taken
off, and two neighbours can be joined: what is left is a strand.
-/
namespace ClonePrint

/-- Every chunk continues the one in front of it: an open edge is met by an open
edge at the same byte, a closed edge by a closed one. -/
def Linked : Option Nat → List Chunk → Prop
  | edge, [] => edge = none
  | edge, c :: more =>
      c.openStart = edge.isSome ∧ (∀ i ∈ edge, i = c.byteOffset) ∧
        Linked (if c.openEnd then some c.endOffset else none) more

theorem Linked.remove {edge : Option Nat} {a b : List Chunk} {c : Chunk}
    (h : Linked edge (a ++ c :: b)) (hclosed : c.isClosed = true) : Linked edge (a ++ b) := by
  obtain ⟨hopens, hcloses⟩ := Chunk.isClosed_iff.1 hclosed
  induction a generalizing edge with
  | nil =>
      obtain ⟨hstart, -, hmore⟩ := h
      rw [hopens] at hstart
      obtain rfl : edge = none := by simpa using hstart.symm
      simpa [hcloses] using hmore
  | cons x a ih =>
      obtain ⟨hstart, hedge, hmore⟩ := h
      exact ⟨hstart, hedge, ih hmore⟩

theorem Linked.replace {edge : Option Nat} {a b : List Chunk} {c d : Chunk}
    (h : Linked edge (a ++ c :: b)) (hstart : d.openStart = c.openStart)
    (hend : d.openEnd = c.openEnd) (hstop : d.endOffset = c.endOffset)
    (hoffset : c.openStart = true → d.byteOffset = c.byteOffset) : Linked edge (a ++ d :: b) := by
  induction a generalizing edge with
  | nil =>
      obtain ⟨hopen, hedge, hmore⟩ := h
      refine ⟨hstart.trans hopen, fun i hi => ?_, by rw [hend, hstop]; exact hmore⟩
      rw [hoffset (hopen.trans (Option.isSome_of_mem hi))]
      exact hedge i hi
  | cons x a ih =>
      obtain ⟨hopen, hedge, hmore⟩ := h
      exact ⟨hopen, hedge, ih hmore⟩

theorem Linked.concat {edge : Option Nat} {a b : List Chunk} {c d : Chunk}
    (h : Linked edge (a ++ c :: d :: b)) (hadjacent : c.precedes d = true) :
    Linked edge (a ++ c.concat d :: b) := by
  induction a generalizing edge with
  | nil =>
      obtain ⟨hopen, hedge, -, -, hmore⟩ := h
      exact ⟨hopen, hedge, by rw [Chunk.concat_endOffset hadjacent]; exact hmore⟩
  | cons x a ih =>
      obtain ⟨hopen, hedge, hmore⟩ := h
      exact ⟨hopen, hedge, ih hmore⟩

/-- Where the piece with a given id starts. -/
def SplitFile.origin (f : SplitFile) (id : Nat) : Nat :=
  ((f.pieces.find? fun c => c.id == id).map Chunk.byteOffset).getD 0

/-- One chunk comes before another: it ends before the place where the other one
began when the file was split. -/
structure Before (f : SplitFile) (c d : Chunk) : Prop where
  id : c.id < d.id
  progress : f.origin c.id < c.endOffset
  stop : c.endOffset ≤ f.origin d.id

/-- The undecided chunks of a file, in order, none of which begins before the piece whose id it
has. -/
structure Strand (f : SplitFile) (boundary : Nat → Prop) (chain : List Chunk) : Prop where
  file : ∀ c ∈ chain, c.file = f.name
  within : ∀ c ∈ chain, c.Within f.text
  start : ∀ c ∈ chain, f.origin c.id ≤ c.byteOffset
  opens : ∀ c ∈ chain, c.openStart = false → boundary c.byteOffset
  closes : ∀ c ∈ chain, c.openEnd = false → boundary c.endOffset
  apart : chain.Pairwise (Before f)
  linked : Linked none chain

namespace Strand

variable {f : SplitFile} {boundary : Nat → Prop}

theorem remove {a b : List Chunk} {c : Chunk} (h : Strand f boundary (a ++ c :: b))
    (hclosed : c.isClosed = true) : Strand f boundary (a ++ b) := by
  have hsub : (a ++ b).Sublist (a ++ c :: b) := (List.sublist_cons_self c b).append_left a
  exact
    { file := fun x hx => h.file x (hsub.subset hx)
      within := fun x hx => h.within x (hsub.subset hx)
      start := fun x hx => h.start x (hsub.subset hx)
      opens := fun x hx => h.opens x (hsub.subset hx)
      closes := fun x hx => h.closes x (hsub.subset hx)
      apart := h.apart.sublist hsub
      linked := h.linked.remove hclosed }

theorem before_congr {a b : List Chunk} {c d : Chunk} (h : (a ++ c :: b).Pairwise (Before f))
    (hleft : ∀ x ∈ a, Before f x c → Before f x d)
    (hright : ∀ x ∈ b, Before f c x → Before f d x) :
    (a ++ d :: b).Pairwise (Before f) := by
  obtain ⟨ha, hcb, hac⟩ := List.pairwise_append.1 h
  obtain ⟨hc, hb⟩ := List.pairwise_cons.1 hcb
  refine List.pairwise_append.2
    ⟨ha, List.pairwise_cons.2 ⟨fun x hx => hright x hx (hc x hx), hb⟩, fun x hx y hy => ?_⟩
  rcases List.mem_cons.1 hy with rfl | hy
  · exact hleft x hx (hac x hx c (List.mem_cons_self ..))
  · exact hac x hx y (List.mem_cons_of_mem _ hy)

/-- Taking the beginning off a chunk that starts at an item leaves a strand, if the
rest starts at a boundary. -/
theorem behind {a b : List Chunk} {c : Chunk} {skipped text : Text}
    (h : Strand f boundary (a ++ c :: b)) (hstart : c.openStart = false)
    (hdivides : skipped ++ text = c.text)
    (hboundary : boundary (c.byteOffset + Text.size skipped)) :
    Strand f boundary (a ++ c.behind skipped text :: b) := by
  have hc : c ∈ a ++ c :: b := by simp
  have hend : (c.behind skipped text).endOffset = c.endOffset := by
    simp only [Chunk.endOffset, Chunk.behind, ← hdivides, Text.size_append]
    omega
  have hother {x : Chunk} (hx : x ∈ a ++ c.behind skipped text :: b) :
      x = c.behind skipped text ∨ x ∈ a ++ c :: b := by
    simp only [List.mem_append, List.mem_cons] at hx ⊢
    tauto
  constructor
  · intro x hx
    rcases hother hx with rfl | hx
    · exact h.file c hc
    · exact h.file x hx
  · intro x hx
    rcases hother hx with rfl | hx
    · exact (h.within c hc).behind hdivides
    · exact h.within x hx
  · intro x hx
    rcases hother hx with rfl | hx
    · exact Nat.le_trans (h.start c hc) (Nat.le_add_right ..)
    · exact h.start x hx
  · intro x hx hopen
    rcases hother hx with rfl | hx
    · exact hboundary
    · exact h.opens x hx hopen
  · intro x hx hopen
    rcases hother hx with rfl | hx
    · rw [hend]
      exact h.closes c hc hopen
    · exact h.closes x hx hopen
  · refine before_congr h.apart (fun x _ hx => ⟨hx.id, hx.progress, hx.stop⟩) fun x _ hx => ?_
    exact ⟨hx.id, by rw [hend]; exact hx.progress, by rw [hend]; exact hx.stop⟩
  · exact h.linked.replace hstart.symm rfl hend fun hopen => by simp [hstart] at hopen

/-- Joining two neighbours of a strand leaves a strand. -/
theorem concat {a b : List Chunk} {c d : Chunk}
    (h : Strand f boundary (a ++ c :: d :: b)) (hadjacent : c.precedes d = true) :
    Strand f boundary (a ++ c.concat d :: b) := by
  have hc : c ∈ a ++ c :: d :: b := by simp
  have hd : d ∈ a ++ c :: d :: b := by simp
  have hend := Chunk.concat_endOffset hadjacent
  have hother {x : Chunk} (hx : x ∈ a ++ c.concat d :: b) :
      x = c.concat d ∨ x ∈ a ++ c :: d :: b := by
    simp only [List.mem_append, List.mem_cons] at hx ⊢
    tauto
  constructor
  · intro x hx
    rcases hother hx with rfl | hx
    · exact h.file c hc
    · exact h.file x hx
  · intro x hx
    rcases hother hx with rfl | hx
    · exact (h.within c hc).concat (h.within d hd) hadjacent
    · exact h.within x hx
  · intro x hx
    rcases hother hx with rfl | hx
    · exact h.start c hc
    · exact h.start x hx
  · intro x hx hopen
    rcases hother hx with rfl | hx
    · exact h.opens c hc hopen
    · exact h.opens x hx hopen
  · intro x hx hopen
    rcases hother hx with rfl | hx
    · rw [hend]
      exact h.closes d hd hopen
    · exact h.closes x hx hopen
  · obtain ⟨-, hcdb, -⟩ := List.pairwise_append.1 h.apart
    obtain ⟨hcd, hdb⟩ := List.pairwise_cons.1 hcdb
    have hbefore := hcd d (List.mem_cons_self ..)
    have hrest : (a ++ c :: b).Pairwise (Before f) :=
      h.apart.sublist (((List.sublist_cons_self d b).cons_cons c).append_left a)
    refine before_congr hrest (fun x _ hx => ⟨hx.id, hx.progress, hx.stop⟩) fun x hx _ => ?_
    have hdx := (List.pairwise_cons.1 hdb).1 x hx
    refine ⟨Nat.lt_trans hbefore.id hdx.id, ?_, by rw [hend]; exact hdx.stop⟩
    rw [hend]
    exact Nat.lt_of_lt_of_le hbefore.progress
      (Nat.le_trans hbefore.stop (Nat.le_of_lt hdx.progress))
  · exact h.linked.concat hadjacent

/-- Of two chunks of a strand one comes before the other. -/
theorem pairwise_perm {l l' : List Chunk} (h : l.Pairwise (Before f)) (hperm : l.Perm l') :
    l'.Pairwise fun c d => Before f c d ∨ Before f d c := by
  refine (hperm.pairwise_iff (R := fun c d => Before f c d ∨ Before f d c)
    fun {c d} hcd => hcd.symm).1 (h.imp .inl)

/-- Nothing lies between a chunk and the one that continues it. -/
theorem not_before_before {c d z : Chunk} (hcz : Before f c z) (hzd : Before f z d)
    (hstart : f.origin d.id ≤ d.byteOffset) (hadjacent : c.precedes d = true) : False := by
  have hnext := (Chunk.precedes_iff.1 hadjacent).2
  have hle := Nat.le_trans hcz.stop (Nat.le_of_lt hzd.progress)
  have hlt := Nat.lt_of_le_of_lt hcz.stop hzd.progress
  have hge := Nat.le_trans hzd.stop hstart
  omega

theorem not_between {chain : List Chunk} (h : Strand f boundary chain) {x y z : Chunk}
    (hsub : [x, z, y].Subperm chain) (hxz : x.id ≤ z.id) (hzy : z.id ≤ y.id) :
    x.precedes y = false := by
  obtain ⟨l, hl, hchain⟩ := hsub
  have hpairs := pairwise_perm (h.apart.sublist hchain) hl
  obtain ⟨hx, hpairs⟩ := List.pairwise_cons.1 hpairs
  have hz := (List.pairwise_cons.1 hpairs).1
  have hbefore : Before f x z := (hx z (by simp)).resolve_right fun hzx => by
    have := hzx.id
    omega
  have hafter : Before f z y := (hz y (by simp)).resolve_right fun hyz => by
    have := hyz.id
    omega
  have hy : y ∈ chain := hchain.subset (hl.mem_iff.2 (by simp))
  exact Bool.eq_false_iff.2 fun hadjacent =>
    not_before_before hbefore hafter (h.start y hy) hadjacent

/-- Chunks that are neighbours in the file are neighbours in the strand. -/
theorem exists_adjacent {chain rest : List Chunk} {c d : Chunk}
    (h : Strand f boundary chain) (hperm : chain.Perm (c :: d :: rest))
    (hid : c.id ≤ d.id) (hadjacent : c.precedes d = true) :
    ∃ a b, chain = a ++ c :: d :: b ∧ (a ++ b).Perm rest := by
  obtain ⟨a, m, rfl⟩ := List.append_of_mem (hperm.mem_iff.2 (List.mem_cons_self ..))
  have hrest : (a ++ m).Perm (d :: rest) :=
    (List.perm_middle.symm.trans hperm).cons_inv
  obtain ⟨-, hcm, ham⟩ := List.pairwise_append.1 h.apart
  obtain ⟨hc, hm⟩ := List.pairwise_cons.1 hcm
  have hstart : f.origin d.id ≤ d.byteOffset :=
    h.start d (hperm.mem_iff.2 (by simp))
  rcases List.mem_append.1 (hrest.mem_iff.2 (List.mem_cons_self ..)) with hd | hd
  · have := (ham d hd c (List.mem_cons_self ..)).id
    omega
  · cases m with
    | nil => cases hd
    | cons z m =>
        rcases List.mem_cons.1 hd with rfl | hd
        · exact ⟨a, m, rfl, (List.perm_middle.symm.trans hrest).cons_inv⟩
        · have hcz := hc z (List.mem_cons_self ..)
          have hzd := (List.pairwise_cons.1 hm).1 d hd
          exact (not_before_before hcz hzd hstart hadjacent).elim

/-- In a strand of open chunks there are two neighbours, unless it is empty. -/
theorem eq_nil_of_unjoined {chain : List Chunk} (h : Strand f boundary chain)
    (hopen : ∀ c ∈ chain, c.isClosed = false)
    (hunjoined : ∀ c ∈ chain, ∀ d ∈ chain, c.id < d.id → c.precedes d = false) : chain = [] := by
  cases chain with
  | nil => rfl
  | cons c more =>
      obtain ⟨hstart, -, hmore⟩ := h.linked
      have hend : c.openEnd = true := by
        have hc := hopen c (List.mem_cons_self ..)
        simpa [Chunk.isClosed, hstart] using hc
      rw [if_pos hend] at hmore
      cases more with
      | nil => simp [Linked] at hmore
      | cons d more =>
          have hd : d ∈ c :: d :: more := by simp
          have hbefore := (List.pairwise_cons.1 h.apart).1 d (List.mem_cons_self ..)
          have hfar := hunjoined c (List.mem_cons_self ..) d hd hbefore.id
          have hnear : c.precedes d = true := Chunk.precedes_iff.2
            ⟨(h.file c (List.mem_cons_self ..)).trans (h.file d hd).symm, hmore.2.1 _ rfl⟩
          simp [hnear] at hfar

end Strand

/-- A chunk of a freshly split file is nonempty and ends before the next one. -/
structure Succeeds (c d : Chunk) : Prop where
  id : c.id < d.id
  progress : c.byteOffset < c.endOffset
  stop : c.endOffset ≤ d.byteOffset

namespace Splitter

variable {file : String} {items : List Nat} {stop : Nat} {ps : List Piece}

theorem le_of_mem_labelFrom {id offset lines : Nat} {openStart : Bool} {c : Chunk}
    (h : c ∈ labelFrom file id offset lines openStart ps) :
    id ≤ c.id ∧ offset ≤ c.byteOffset := by
  induction ps generalizing id offset lines openStart with
  | nil => cases h
  | cons p more ih =>
      rcases List.mem_cons.1 h with rfl | h
      · exact ⟨Nat.le_refl _, Nat.le_refl _⟩
      · have := ih h
        omega

theorem pairwise_labelFrom {id offset lines : Nat} {openStart : Bool}
    (h : Carved items stop offset ps) :
    (labelFrom file id offset lines openStart ps).Pairwise Succeeds := by
  fun_induction Carved items stop offset ps generalizing id lines openStart with
  | case1 => exact h.elim
  | case2 offset p => exact List.pairwise_singleton ..
  | case3 offset p q more ih =>
      refine .cons (fun c hc => ?_) (ih h.2.2)
      have hle := le_of_mem_labelFrom hc
      have hpos := size_pos h.1
      exact ⟨Nat.lt_of_succ_le hle.1, by simpa [Chunk.endOffset] using hpos, hle.2⟩

theorem linked_labelFrom {id offset lines : Nat} {openStart : Bool}
    (h : Carved items stop offset ps) :
    Linked (if openStart then some offset else none)
      (labelFrom file id offset lines openStart ps) := by
  fun_induction Carved items stop offset ps generalizing id lines openStart with
  | case1 => exact h.elim
  | case2 offset p =>
      refine ⟨?_, ?_, by simp [h.1, labelFrom, Linked]⟩
      · cases openStart <;> rfl
      · cases openStart <;> simp
  | case3 offset p q more ih =>
      refine ⟨?_, ?_, ih h.2.2⟩
      · cases openStart <;> rfl
      · cases openStart <;> simp

/-- Closed edges of freshly split pieces lie at items or at the ends of the file. -/
theorem boundary_labelFrom {boundary : Nat → Prop} {id offset lines : Nat} {openStart : Bool}
    (h : Carved items stop offset ps) (hitems : ∀ i ∈ items, boundary i) (hstop : boundary stop)
    (hstart : openStart = false → boundary offset) :
    ∀ c ∈ labelFrom file id offset lines openStart ps,
      (c.openStart = false → boundary c.byteOffset) ∧ (c.openEnd = false → boundary c.endOffset) := by
  fun_induction Carved items stop offset ps generalizing id lines openStart with
  | case1 => exact h.elim
  | case2 offset p =>
      intro c hc
      obtain rfl := List.mem_singleton.1 hc
      exact ⟨hstart, fun _ => by simpa [Chunk.endOffset, h.2] using hstop⟩
  | case3 offset p q more ih =>
      have hclosed (hopen : p.openEnd = false) : boundary (offset + Text.size p.text) :=
        hitems _ (h.2.1 hopen)
      intro c hc
      rcases List.mem_cons.1 hc with rfl | hc
      · exact ⟨hstart, hclosed⟩
      · exact ih h.2.2 hclosed c hc

end Splitter

namespace SplitFile

theorem origin_of_mem {f : SplitFile} (h : f.pieces.Pairwise Succeeds) {c : Chunk}
    (hc : c ∈ f.pieces) : f.origin c.id = c.byteOffset := by
  obtain ⟨a, b, hab⟩ := List.append_of_mem hc
  have hfirst : ∀ x ∈ a, (x.id == c.id) = false := by
    rw [hab] at h
    intro x hx
    have hlt := ((List.pairwise_append.1 h).2.2 x hx c (List.mem_cons_self ..)).id
    exact beq_false_of_ne (Nat.ne_of_lt hlt)
  have hfind : f.pieces.find? (fun x => x.id == c.id) = some c := by
    rw [hab, List.find?_append, List.find?_eq_none.2 fun x hx => by simp [hfirst x hx]]
    simp
  rw [origin, hfind]
  rfl

/-- The pieces of a split file form a strand. -/
theorem strand_pieces {f : SplitFile} {boundary : Nat → Prop} {ps : List Piece}
    (hlabel : f.pieces = Splitter.label f.name ps)
    (hcarved : Carved f.items (Text.size f.text) 0 ps) (hzero : boundary 0)
    (hstop : boundary (Text.size f.text)) (hitems : ∀ i ∈ f.items, boundary i) :
    Strand f boundary f.pieces := by
  have hpairs : f.pieces.Pairwise Succeeds := by
    rw [hlabel]
    exact Splitter.pairwise_labelFrom hcarved
  have hedges : ∀ c ∈ f.pieces, (c.openStart = false → boundary c.byteOffset) ∧
      (c.openEnd = false → boundary c.endOffset) := by
    rw [hlabel]
    exact Splitter.boundary_labelFrom hcarved hitems hstop fun _ => hzero
  constructor
  · exact fun c hc => (within hc).1
  · exact fun c hc => (within hc).2.1
  · exact fun c hc => Nat.le_of_eq (origin_of_mem hpairs hc)
  · exact fun c hc => (hedges c hc).1
  · exact fun c hc => (hedges c hc).2
  · refine hpairs.imp_of_mem fun hc hd hcd => ⟨hcd.id, ?_, ?_⟩
    · rw [origin_of_mem hpairs hc]
      exact hcd.progress
    · rw [origin_of_mem hpairs hd]
      exact hcd.stop
  · have hlinked : Linked (if false then some 0 else none) (Splitter.label f.name ps) :=
      Splitter.linked_labelFrom hcarved
    rw [hlabel]
    simpa using hlinked

end SplitFile

end ClonePrint
