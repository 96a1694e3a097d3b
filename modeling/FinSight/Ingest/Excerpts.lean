import FinSight.Guarantees.TokenCap

/-!
# Chunks are excerpts

* `wordy_linePieces` : every piece of a line has a word;
* `Excerpt` : a chunk with the run of words that it quotes; `excerpt_of_chunk`.
-/

namespace FinSight.Ingest

open Runs

/-! ## Lines -/

theorem isTrimmed_of_mem_toLines {pages : List Page} {line : Line} (h : line ∈ toLines pages) : IsTrimmed line.text := by
  obtain ⟨page, -, h⟩ := List.mem_flatMap.mp h
  obtain ⟨t, ht, h⟩ := List.mem_filterMap.mp h
  obtain ⟨raw, -, rfl⟩ := List.mem_map.mp ht
  split at h
  · cases h
  · next hne =>
    rw [← Option.some.inj h]
    exact ⟨hne, fun u hu => head?_trim hu, fun u hu => getLast?_trim hu⟩

/-- The lines of a section stand together. -/
theorem lines_infix {pages : List Page} {s : Section} (hs : s ∈ (parseStructure pages).sections) :
    s.lines <:+: toLines pages := by
  obtain ⟨groups, hlines, -, -, hgroups⟩ := groups_of_lines pages
  obtain ⟨group, hgroup, hof⟩ := exists_right hgroups.flip hs
  obtain ⟨before, after, rfl⟩ := List.append_of_mem (List.mem_filter.mp hgroup).1
  rw [hlines, hof.lines, List.flatMap_append, List.flatMap_cons]
  have hgroup : group.2 <:+: group.all := (List.suffix_append _ _).isInfix
  exact ((hgroup.trans (List.prefix_append _ _).isInfix).trans (List.suffix_append _ _).isInfix).trans
    (List.suffix_append _ _).isInfix

/-- A section is headed by a line of the document, or stands before the first. -/
theorem heading_of_section {pages : List Page} {s : Section} (hs : s ∈ (parseStructure pages).sections) :
    s.heading = text "Preamble" ∨ ∃ line ∈ toLines pages, line.text = s.heading := by
  obtain ⟨groups, hlines, -, -, hgroups⟩ := groups_of_lines pages
  obtain ⟨group, hgroup, hof⟩ := exists_right hgroups.flip hs
  rw [hof.heading]
  cases hheading : group.1 with
  | none => exact Or.inl rfl
  | some line =>
      refine Or.inr ⟨line, ?_, rfl⟩
      rw [hlines]
      refine List.mem_append_right _ (List.mem_flatMap.mpr ⟨group, (List.mem_filter.mp hgroup).1, ?_⟩)
      exact List.mem_append_left _ (Option.mem_toList.mpr hheading)

/-! ## Pieces -/

theorem words_of_mem_words {t w : Text} (h : w ∈ words t) : words w = [w] := by
  rw [← filter_splitSpaces] at h
  obtain ⟨hw, hne⟩ := List.mem_filter.mp h
  rw [words_of_not_space fun u hu => not_space_of_mem_splitSpaces hw hu, if_neg (by simpa using hne)]

theorem wordy_joinWords {ws : List Text} (hne : ws ≠ []) (h : ∀ w ∈ ws, words w ≠ []) : words (joinWords ws) ≠ [] := by
  obtain ⟨w, hw⟩ := List.exists_mem_of_ne_nil _ hne
  rw [words_joinWords]
  exact fun hnil => h w hw (List.flatMap_eq_nil_iff.mp hnil w hw)

theorem wordy_wordGroups {R : Type} [LT R] [NatCast R] [DecidableLT R] (count : Text → Nat) (lead : Text) (cap : R)
    {sentence : Text} (h : ∀ word ∈ splitSpaces sentence, words word ≠ []) :
    ∀ group ∈ wordGroups count lead cap sentence, words group ≠ [] := by
  have hloop : ∀ ws : List Text, (∀ word ∈ ws, words word ≠ []) →
      let s := ws.foldl (addWord count lead cap) ([], [])
      (∀ group ∈ s.1, words group ≠ []) ∧ ∀ word ∈ s.2, words word ≠ [] := by
    refine foldl_induction (motive := fun ws (s : List Text × List Text) => (∀ word ∈ ws, words word ≠ []) →
      (∀ group ∈ s.1, words group ≠ []) ∧ ∀ word ∈ s.2, words word ≠ []) ?_ ?_
    · exact fun _ => ⟨fun group hgroup => absurd hgroup List.not_mem_nil, fun word hword => absurd hword List.not_mem_nil⟩
    · intro ws s word ih hall
      obtain ⟨hout, hcur⟩ := ih fun w hw => hall w (List.mem_append_left _ hw)
      have hword := hall word (List.mem_append_right _ (List.mem_singleton_self _))
      unfold addWord
      split
      · next hover =>
        refine ⟨List.forall_mem_append.mpr ⟨hout, ?_⟩, ?_⟩
        · exact List.forall_mem_singleton.mpr (wordy_joinWords hover.1 hcur)
        · exact List.forall_mem_singleton.mpr hword
      · exact ⟨hout, List.forall_mem_append.mpr ⟨hcur, List.forall_mem_singleton.mpr hword⟩⟩
  obtain ⟨hout, hcur⟩ := hloop _ h
  unfold wordGroups
  split
  next out cur hfold =>
  rw [hfold] at hout hcur
  split
  · next hne => exact List.forall_mem_append.mpr ⟨hout, List.forall_mem_singleton.mpr (wordy_joinWords hne hcur)⟩
  · exact hout

theorem wordy_linePieces {R : Type} [LE R] [LT R] [NatCast R] [DecidableLE R] [DecidableLT R] (count : Text → Nat) (lead : Text)
    (cap : R) {line : Line} (h : IsTrimmed line.text) :
    ∀ p ∈ linePieces count lead cap line, words p.text ≠ [] := by
  intro p hp
  unfold linePieces at hp
  split at hp
  · rw [List.mem_singleton.mp hp]
    exact words_ne_nil h.ne_nil h.head
  · obtain ⟨i, hi, rfl⟩ := List.mem_mapIdx.mp hp
    have hmem := List.getElem_mem hi
    generalize (splitToFit count lead cap line.text)[i] = group at hmem ⊢
    obtain ⟨sentence, hsentence, hgroup⟩ := List.mem_flatMap.mp hmem
    have htrimmed := isTrimmed_of_mem_sentences h hsentence
    split at hgroup
    · rw [List.mem_singleton.mp hgroup]
      exact words_ne_nil htrimmed.ne_nil htrimmed.head
    · refine wordy_wordGroups count lead cap (fun word hword => ?_) _ hgroup
      rw [words_of_mem_words (mem_words_of_mem_splitSpaces htrimmed hword)]
      exact List.cons_ne_nil _ _

section
variable {R : Type} [LE R] [LT R] [Mul R] [NatCast R] [DecidableLE R] [DecidableLT R]
variable (count : Text → Nat) (lead : Text) (opts : Options R)

/-- Pieces with a word each, which are those of the lines. -/
structure Cut (lines : List Line) (pieces : List Piece) : Prop where
  placed : pieces.flatMap Piece.placed = lines.flatMap Line.placed
  wordy : ∀ p ∈ pieces, words p.text ≠ []

theorem Cut.append {ls ls' : List Line} {ps ps' : List Piece} (h : Cut ls ps) (h' : Cut ls' ps') : Cut (ls ++ ls') (ps ++ ps') where
  placed := by rw [List.flatMap_append, List.flatMap_append, h.placed, h'.placed]
  wordy := List.forall_mem_append.mpr ⟨h.wordy, h'.wordy⟩

theorem cut_whole {lines : List Line} (h : ∀ line ∈ lines, IsTrimmed line.text) : Cut lines (lines.map Line.piece) where
  placed := by
    rw [List.flatMap_map]
    rfl
  wordy p hp := by
    obtain ⟨line, hline, rfl⟩ := List.mem_map.mp hp
    exact words_ne_nil (h line hline).ne_nil (h line hline).head

theorem cut_toPieces (cap : R) {lines : List Line} (h : ∀ line ∈ lines, IsTrimmed line.text) :
    Cut lines (toPieces count lead cap lines) where
  placed := by
    rw [toPieces, List.flatMap_assoc]
    exact List.flatMap_congr fun line _ => placed_of_split (splitLine_linePieces count lead cap line)
  wordy p hp := by
    obtain ⟨line, hline, hp⟩ := List.mem_flatMap.mp hp
    exact wordy_linePieces count lead cap (h line hline) p hp

/-! ## Sections -/

/-- The pieces that are done, of which the chunks are runs, and those that wait. -/
def DrawnAt (heading : Text) (lines : List Line) (s : List Chunk × List Piece) : Prop :=
  ∃ done, Cut lines (done ++ s.2) ∧ ∀ c ∈ s.1, ∃ run, run ≠ [] ∧ run <:+: done ∧ c = toChunk count lead heading run

variable {heading : Text} {lines : List Line} {s : List Chunk × List Piece}

theorem DrawnAt.flush (h : DrawnAt count lead heading lines s) :
    DrawnAt count lead heading lines (Ingest.flush count lead heading s, []) := by
  obtain ⟨done, hcut, hchunks⟩ := h
  refine ⟨done ++ s.2, by rwa [List.append_nil], fun c hc => ?_⟩
  have hold : ∀ c ∈ s.1, ∃ run, run ≠ [] ∧ run <:+: done ++ s.2 ∧ c = toChunk count lead heading run := by
    intro c hc
    obtain ⟨run, hne, hrun, heq⟩ := hchunks c hc
    exact ⟨run, hne, hrun.trans (List.prefix_append _ _).isInfix, heq⟩
  dsimp only at hc
  unfold Ingest.flush at hc
  split at hc
  · next hne =>
    rcases List.mem_append.mp hc with hc | hc
    · exact hold c hc
    · exact ⟨s.2, hne, (List.suffix_append _ _).isInfix, List.mem_singleton.mp hc⟩
  · exact hold c hc

theorem DrawnAt.wait (h : DrawnAt count lead heading lines s) {ls : List Line} {pieces : List Piece} (hcut : Cut ls pieces) :
    DrawnAt count lead heading (lines ++ ls) (s.1, s.2 ++ pieces) := by
  obtain ⟨done, hdone, hchunks⟩ := h
  refine ⟨done, ?_, hchunks⟩
  rw [← List.append_assoc]
  exact hdone.append hcut

theorem DrawnAt.windows {chunks : List Chunk} (h : DrawnAt count lead heading lines (chunks, [])) {ls : List Line}
    {pieces : List Piece} (hcut : Cut ls pieces) :
    DrawnAt count lead heading (lines ++ ls) (chunks ++ (windows count lead opts pieces).map (toChunk count lead heading), []) := by
  obtain ⟨done, hdone, hchunks⟩ := h
  rw [List.append_nil] at hdone
  refine ⟨done ++ pieces, by rw [List.append_nil]; exact hdone.append hcut, fun c hc => ?_⟩
  rcases List.mem_append.mp hc with hc | hc
  · obtain ⟨run, hne, hrun, heq⟩ := hchunks c hc
    exact ⟨run, hne, hrun.trans (List.prefix_append _ _).isInfix, heq⟩
  · obtain ⟨runs, hwindows, hcovers⟩ := exists_windows count lead opts pieces
    rw [hwindows] at hc
    obtain ⟨run, hrun, rfl⟩ := List.mem_map.mp hc
    obtain ⟨r, hr, rfl⟩ := List.mem_map.mp hrun
    refine ⟨_, Run.slice_ne_nil (hcovers.proper r hr) (hcovers.stop_le r hr), ?_, rfl⟩
    have hslice : r.slice pieces <:+: pieces :=
      (List.drop_suffix r.start _).isInfix.trans (List.take_prefix r.stop pieces).isInfix
    exact hslice.trans (List.suffix_append _ _).isInfix

theorem DrawnAt.addBlock (h : DrawnAt count lead heading lines s) {block : Block}
    (hblock : ∀ line ∈ block.lines, IsTrimmed line.text) :
    DrawnAt count lead heading (lines ++ block.lines) (addBlock count lead opts heading s block) := by
  unfold Ingest.addBlock
  dsimp only
  split
  · exact h.wait count lead (cut_whole hblock)
  · have hflushed := h.flush count lead
    split
    · exact hflushed.wait count lead (cut_whole hblock)
    · exact hflushed.windows count lead opts (cut_toPieces count lead opts.cap hblock)

theorem drawn_sectionChunks (heading : Text) {blocks : List Block}
    (h : ∀ line ∈ blocks.flatMap Block.lines, IsTrimmed line.text) :
    DrawnAt count lead heading (blocks.flatMap Block.lines) (sectionChunks count lead opts heading blocks, []) := by
  refine DrawnAt.flush count lead (foldl_induction (motive := fun blocks s =>
    (∀ line ∈ blocks.flatMap Block.lines, IsTrimmed line.text) →
      DrawnAt count lead heading (blocks.flatMap Block.lines) s) ?_ ?_ blocks h)
  · exact fun _ => ⟨[], ⟨rfl, fun p hp => by cases hp⟩, fun c hc => by cases hc⟩
  · intro blocks s block ih hall
    rw [List.flatMap_append, List.flatMap_singleton] at hall ⊢
    obtain ⟨hbefore, hblock⟩ := List.forall_mem_append.mp hall
    exact (ih hbefore).addBlock count lead opts hblock

end

/-! ## Documents -/

/-- What a chunk quotes: after the title and the heading, words that stand together in the document, from the first page to
the last. -/
structure Excerpt (pages : List Page) (title : Text) (c : Chunk) (body : Text) (ws : List (Text × Int)) : Prop where
  content : c.content = sectionLead title c.sectionHeading ++ body
  heading : c.sectionHeading = text "Preamble" ∨ ∃ line ∈ toLines pages, line.text = c.sectionHeading
  words : words body = ws.map Prod.fst
  nonempty : ws ≠ []
  together : ws <:+: pages.flatMap Page.placed
  pageStart : IsLeast {n | ∃ w ∈ ws, w.2 = n} c.pageStart
  pageEnd : IsGreatest {n | ∃ w ∈ ws, w.2 = n} c.pageEnd

theorem infix_flatMap {α β : Type} {xs ys : List α} (h : xs <:+: ys) (f : α → List β) : xs.flatMap f <:+: ys.flatMap f := by
  obtain ⟨before, after, rfl⟩ := h
  exact ⟨before.flatMap f, after.flatMap f, by simp only [List.flatMap_append]⟩

/-- The pages of pieces with a word each are the pages of their words. -/
theorem pages_placed {run : List Piece} (h : ∀ p ∈ run, words p.text ≠ []) :
    {n | ∃ w ∈ run.flatMap Piece.placed, w.2 = n} = {n | ∃ p ∈ run, p.page = n} := by
  refine Set.ext fun n => ⟨?_, ?_⟩
  · rintro ⟨w, hw, rfl⟩
    obtain ⟨p, hp, hw⟩ := List.mem_flatMap.mp hw
    obtain ⟨t, -, rfl⟩ := List.mem_map.mp hw
    exact ⟨p, hp, rfl⟩
  · rintro ⟨p, hp, rfl⟩
    obtain ⟨t, ht⟩ := List.exists_mem_of_ne_nil _ (h p hp)
    exact ⟨(t, p.page), List.mem_flatMap.mpr ⟨p, hp, List.mem_map_of_mem ht⟩, rfl⟩

/-- **A chunk quotes the document.** -/
theorem excerpt_of_chunk {R : Type} [LE R] [LT R] [Mul R] [NatCast R] [DecidableLE R] [DecidableLT R] {pages : List Page}
    {count : Text → Nat} {fallbackTitle : Text} {opts : Options R} {c : Chunk}
    (hc : c ∈ (chunkDocument (parseStructure pages) count fallbackTitle opts).map Prod.snd) :
    ∃ body ws, Excerpt pages ((parseStructure pages).title.getD fallbackTitle) c body ws := by
  rw [map_snd_chunkDocument] at hc
  obtain ⟨s, hs, hc⟩ := List.mem_flatMap.mp hc
  have hlines := lines_infix hs
  obtain ⟨done, hcut, hchunks⟩ := drawn_sectionChunks count _ opts s.heading fun line hline =>
    isTrimmed_of_mem_toLines (hlines.subset hline)
  obtain ⟨run, hne, hrun, rfl⟩ := hchunks c hc
  rw [List.append_nil] at hcut
  have hwordy : ∀ p ∈ run, words p.text ≠ [] := fun p hp => hcut.wordy p (hrun.subset hp)
  have hof := chunkOf_toChunk count (sectionLead ((parseStructure pages).title.getD fallbackTitle) s.heading) s.heading hne
  refine ⟨joinPieces run, run.flatMap Piece.placed, rfl, heading_of_section hs, ?_, ?_, ?_, ?_, ?_⟩
  · rw [hof.words, List.map_flatMap]
    refine List.flatMap_congr fun p _ => ?_
    rw [Piece.placed, placed, List.map_map]
    exact (List.map_id _).symm
  · obtain ⟨p, hp⟩ := List.exists_mem_of_ne_nil _ hne
    intro hnil
    exact hwordy p hp (List.map_eq_nil_iff.mp (List.flatMap_eq_nil_iff.mp hnil p hp))
  · rw [← placed_toLines]
    refine (infix_flatMap hrun Piece.placed).trans ?_
    rw [hcut.placed]
    exact infix_flatMap hlines Line.placed
  · rw [pages_placed hwordy]
    exact hof.pageStart
  · rw [pages_placed hwordy]
    exact hof.pageEnd

end FinSight.Ingest
