import FinSight.Guarantees.Windows

/-!
# The cap on chunks

* `capped_of_fits` : all chunks fit the cap, where every word fits that may have to stand alone;
* `capped_of_lead` : with words of at most 50 tokens, a title and heading of at most 430 are enough;
* `capped_iff` : where text after the title and heading never counts less for having more text in it, nothing else is.
-/

namespace FinSight.Ingest

open Scanning Runs

theorem le_cap {n : Nat} : ((n : ℚ) ≤ defaultOptions.cap) ↔ n ≤ 480 := by
  show (n : ℚ) ≤ 480 ↔ _
  exact_mod_cast Iff.rfl

theorem le_target {n : Nat} : ((n : ℚ) ≤ defaultOptions.target) ↔ n ≤ 350 := by
  show (n : ℚ) ≤ 350 ↔ _
  exact_mod_cast Iff.rfl

section

variable (count : Text → Nat) (lead : Text)

/-- Every word fits that may have to stand alone: of a sentence over the cap, in a line over the cap, in a block over the
cap, all with the title and heading before them. -/
def Fits (s : Section) : Prop :=
  ∀ block ∈ s.blocks, 480 < count (lead ++ joinPieces (block.lines.map Line.piece)) →
    ∀ line ∈ block.lines, 480 < count (lead ++ line.text) →
      ∀ sentence ∈ sentences line.text, 480 < count (lead ++ sentence) →
        ∀ word ∈ splitSpaces sentence, count (lead ++ word) ≤ 480

theorem over_iff {t : Text} : ¬ FitsCap count lead defaultOptions.cap t ↔ 480 < count (lead ++ t) := by
  rw [FitsCap, le_cap, not_le]

theorem capped_sectionChunks {s : Section} (h : Fits count lead s) :
    ∀ c ∈ sectionChunks count lead defaultOptions s.heading s.blocks, c.tokenCount ≤ 480 := by
  have hflush : ∀ st : List Chunk × List Piece, (∀ c ∈ st.1, c.tokenCount ≤ 480) →
      (st.2 ≠ [] → count (lead ++ joinPieces st.2) ≤ 480) →
      ∀ c ∈ flush count lead s.heading st, c.tokenCount ≤ 480 := by
    intro st hchunks hcurrent c hc
    unfold flush at hc
    split at hc
    · next hne =>
      rcases List.mem_append.mp hc with hc | hc
      · exact hchunks c hc
      · rw [List.mem_singleton.mp hc]
        exact hcurrent hne
    · exact hchunks c hc
  have hloop : ∀ blocks : List Block, (∀ block ∈ blocks, block ∈ s.blocks) →
      let st := blocks.foldl (addBlock count lead defaultOptions s.heading) ([], [])
      (∀ c ∈ st.1, c.tokenCount ≤ 480) ∧ (st.2 ≠ [] → count (lead ++ joinPieces st.2) ≤ 480) := by
    refine foldl_induction (motive := fun (blocks : List Block) (st : List Chunk × List Piece) => (∀ block ∈ blocks, block ∈ s.blocks) →
      (∀ c ∈ st.1, c.tokenCount ≤ 480) ∧ (st.2 ≠ [] → count (lead ++ joinPieces st.2) ≤ 480)) ?_ ?_
    · exact fun _ => ⟨by rintro c ⟨⟩, fun hne => absurd rfl hne⟩
    · intro blocks st block ih hall
      obtain ⟨hchunks, hcurrent⟩ := ih fun b hb => hall b (List.mem_append_left _ hb)
      have hblock := hall block (List.mem_append_right _ (List.mem_singleton_self _))
      unfold addBlock
      dsimp only
      split
      · next htarget =>
        exact ⟨hchunks, fun _ => (le_target.mp htarget).trans (by decide)⟩
      · split
        · next hcap => exact ⟨hflush st hchunks hcurrent, fun _ => le_cap.mp hcap⟩
        · next hover =>
          rw [le_cap, not_le] at hover
          refine ⟨fun c hc => ?_, fun hne => absurd rfl hne⟩
          rcases List.mem_append.mp hc with hc | hc
          · exact hflush st hchunks hcurrent c hc
          · obtain ⟨win, hwin, rfl⟩ := List.mem_map.mp hc
            refine le_cap.mp (fits_windows count lead defaultOptions (by decide +kernel) (fun p hp => ?_) win hwin).2
            obtain ⟨line, hline, hp⟩ := List.mem_flatMap.mp hp
            refine fits_linePieces count lead le_rfl (fun hline' sentence hsentence hlong word hword => ?_) p hp
            exact le_cap.mpr (h block hblock hover line hline ((over_iff count lead).mp hline') sentence hsentence
              ((over_iff count lead).mp hlong) word hword)
  obtain ⟨hchunks, hcurrent⟩ := hloop s.blocks fun _ => id
  exact hflush _ hchunks hcurrent

end

/-- No chunk is over the cap. -/
def Capped (pages : List Page) (countTokens : Text → Nat) (fallbackTitle : Text) : Prop :=
  ∀ c ∈ chunkDocument (parseStructure pages) countTokens fallbackTitle defaultOptions, c.2.tokenCount ≤ 480

/-- In every section the words fit. -/
def WordsFit (pages : List Page) (countTokens : Text → Nat) (fallbackTitle : Text) : Prop :=
  ∀ s ∈ (parseStructure pages).sections,
    Fits countTokens (sectionLead ((parseStructure pages).title.getD fallbackTitle) s.heading) s

theorem exists_section {doc : Structure} {countTokens : Text → Nat} {fallbackTitle : Text} {c : Nat × Chunk}
    (h : c ∈ chunkDocument doc countTokens fallbackTitle defaultOptions) :
    ∃ s ∈ doc.sections, c.2 ∈ sectionChunks countTokens (sectionLead (doc.title.getD fallbackTitle) s.heading)
      defaultOptions s.heading s.blocks := by
  have hmem := List.mem_map_of_mem (f := Prod.snd) h
  rw [map_snd_chunkDocument] at hmem
  exact List.mem_flatMap.mp hmem

theorem capped_of_fits {pages : List Page} {countTokens : Text → Nat} {fallbackTitle : Text}
    (h : WordsFit pages countTokens fallbackTitle) : Capped pages countTokens fallbackTitle := by
  intro c hc
  obtain ⟨s, hs, hc⟩ := exists_section hc
  exact capped_sectionChunks _ _ (h s hs) c.2 hc

/-- With words of at most 50 tokens, a title and heading of at most 430 are enough. -/
theorem capped_of_lead {pages : List Page} {countTokens : Text → Nat} {fallbackTitle : Text}
    (hadd : ∀ x y, countTokens (x ++ y) ≤ countTokens x + countTokens y)
    (hwords : ∀ s ∈ (parseStructure pages).sections, ∀ l ∈ s.lines, ∀ sentence ∈ sentences l.text,
      ∀ w ∈ splitSpaces sentence, countTokens w ≤ 50)
    (hlead : ∀ s ∈ (parseStructure pages).sections,
      countTokens (sectionLead ((parseStructure pages).title.getD fallbackTitle) s.heading) ≤ 430) :
    Capped pages countTokens fallbackTitle := by
  refine capped_of_fits fun s hs block hblock _ line hline _ sentence hsentence _ word hword => ?_
  have hcount := hadd (sectionLead ((parseStructure pages).title.getD fallbackTitle) s.heading) word
  have hshort := hwords s hs line (List.mem_flatMap.mpr ⟨block, hblock, hline⟩) sentence hsentence word hword
  have htitle := hlead s hs
  omega

/-! ## The other way -/

/-- More text never counts less. -/
def Grows (count : Text → Nat) : Prop := ∀ x y z, count (x ++ z) ≤ count (x ++ y ++ z)

theorem Grows.infix_le {count : Text → Nat} (h : Grows count) (lead : Text) {w t : Text} (hw : w <:+: t) :
    count (lead ++ w) ≤ count (lead ++ t) := by
  obtain ⟨x, y, rfl⟩ := hw
  calc count (lead ++ w)
      ≤ count (lead ++ x ++ w) := h lead x w
    _ ≤ count (lead ++ x ++ w ++ y) := by simpa using h (lead ++ x ++ w) y []
    _ = count (lead ++ (x ++ w ++ y)) := by simp only [List.append_assoc]

theorem exists_right {α β : Type} {rel : α → β → Prop} {xs : List α} {ys : List β} (h : List.Forall₂ rel xs ys)
    {a : α} (ha : a ∈ xs) : ∃ b ∈ ys, rel a b := by
  induction h with
  | nil => cases ha
  | cons hab _ ih =>
      rcases List.mem_cons.mp ha with rfl | ha
      · exact ⟨_, List.mem_cons_self, hab⟩
      · obtain ⟨b, hb, hrel⟩ := ih ha
        exact ⟨b, List.mem_cons_of_mem _ hb, hrel⟩

/-- A word of a section is in one of its chunks, after the title and the heading. -/
theorem word_le_cap {pages : List Page} {count : Text → Nat} {fallbackTitle : Text} (hgrows : Grows count)
    (h : Capped pages count fallbackTitle) {s : Section} (hs : s ∈ (parseStructure pages).sections) {line : Line}
    (hline : line ∈ s.lines) {w : Text} (hw : w ∈ words line.text) :
    count (sectionLead ((parseStructure pages).title.getD fallbackTitle) s.heading ++ w) ≤ 480 := by
  obtain ⟨parts, runs, -, hplaced, hchunks, hcovers⟩ :=
    sectionCovered count ((parseStructure pages).title.getD fallbackTitle) defaultOptions s
  have hmem : (w, line.page) ∈ s.lines.flatMap Line.placed :=
    List.mem_flatMap.mpr ⟨line, hline, List.mem_map_of_mem hw⟩
  rw [← hplaced] at hmem
  obtain ⟨p, hp, hmem⟩ := List.mem_flatMap.mp hmem
  obtain ⟨w', hword, heq⟩ := List.mem_map.mp hmem
  have hword : w ∈ words p.text := (Prod.mk.inj heq).1 ▸ hword
  obtain ⟨r, hr, hp⟩ := hcovers.mem_slice hp
  obtain ⟨c, hc, hof⟩ := exists_right hchunks hr
  have hin : w <:+: joinPieces (r.slice (parts.flatMap Prod.snd)) := by
    refine infix_of_mem_words ?_
    rw [words_joinPieces]
    exact List.mem_flatMap.mpr ⟨p, hp, hword⟩
  have hchunk : c ∈ (chunkDocument (parseStructure pages) count fallbackTitle defaultOptions).map Prod.snd := by
    rw [map_snd_chunkDocument]
    exact List.mem_flatMap.mpr ⟨s, hs, hc⟩
  obtain ⟨d, hd, rfl⟩ := List.mem_map.mp hchunk
  refine (hgrows.infix_le _ hin).trans ?_
  rw [← hof.content, ← hof.tokenCount]
  exact h d hd

theorem toLines_text {pages : List Page} {line : Line} (h : line ∈ toLines pages) : words line.text ≠ [] := by
  obtain ⟨page, -, h⟩ := List.mem_flatMap.mp h
  obtain ⟨t, ht, h⟩ := List.mem_filterMap.mp h
  obtain ⟨raw, -, rfl⟩ := List.mem_map.mp ht
  split at h
  · cases h
  · next hne =>
    rw [← Option.some.inj h]
    exact words_ne_nil hne fun u hu => head?_trim hu

theorem mem_toLines {pages : List Page} {s : Section} (hs : s ∈ (parseStructure pages).sections) {line : Line}
    (hline : line ∈ s.lines) : line ∈ toLines pages := by
  obtain ⟨groups, hlines, -, -, hgroups⟩ := groups_of_lines pages
  obtain ⟨group, hgroup, hof⟩ := exists_right hgroups.flip hs
  rw [hlines]
  refine List.mem_append_right _ (List.mem_flatMap.mpr ⟨group, (List.mem_filter.mp hgroup).1, ?_⟩)
  exact List.mem_append_right _ (hof.lines ▸ hline)

/-- **No chunk is over the cap** where every word fits it with the title and the heading, if it may have to stand alone;
and only there, where more text never counts less. -/
theorem capped_iff (pages : List Page) (countTokens : Text → Nat) (fallbackTitle : Text) :
    (WordsFit pages countTokens fallbackTitle → Capped pages countTokens fallbackTitle) ∧
      (Grows countTokens → (Capped pages countTokens fallbackTitle ↔ WordsFit pages countTokens fallbackTitle)) := by
  refine ⟨capped_of_fits, fun hgrows => ⟨fun h s hs block hblock _ line hline _ sentence hsentence _ word hword => ?_,
    capped_of_fits⟩⟩
  have hmem : line ∈ s.lines := List.mem_flatMap.mpr ⟨block, hblock, hline⟩
  by_cases hempty : word = []
  · obtain ⟨w, rest, hw⟩ := List.exists_cons_of_ne_nil (toLines_text (mem_toLines hs hmem))
    have hfirst := word_le_cap hgrows h hs hmem (hw ▸ List.mem_cons_self (a := w))
    rw [hempty]
    exact (hgrows.infix_le _ List.nil_infix).trans hfirst
  · refine word_le_cap hgrows h hs hmem ?_
    rw [← words_sentences, ← List.flatMap_congr fun t _ => filter_splitSpaces t]
    refine List.mem_flatMap.mpr ⟨sentence, hsentence, List.mem_filter.mpr ⟨hword, ?_⟩⟩
    simpa using hempty

/-- A section of 600 units, in sentences of 30. -/
def longSection : List Page :=
  [⟨1, text "Lease\n1. Rent\n" ++ List.flatten (List.replicate 20 (text "The tenant pays rent monthly. "))⟩]

/-- With one token for each unit, it is split. -/
theorem capped_iff_longSection :
    (chunkDocument (parseStructure longSection) List.length [] defaultOptions).map (fun c => c.2.tokenCount) = [346, 346] ∧
      Capped longSection List.length [] ∧ WordsFit longSection List.length [] := by
  have hgrows : Grows List.length := fun x y z => by
    rw [List.length_append, List.length_append, List.length_append]
    omega
  have hfit : WordsFit longSection List.length [] := by
    unfold WordsFit Fits
    decide +kernel
  exact ⟨by decide +kernel, ((capped_iff longSection List.length []).2 hgrows).mpr hfit, hfit⟩

/-- A title of 470 units, with words of at most 47. -/
def longTitle : Text :=
  List.flatten (List.replicate 9 (List.replicate 47 (unit 'a') ++ [unit ' '])) ++ List.replicate 38 (unit 'a')

/-- With one token for each unit, the title and the heading are over the cap by themselves. -/
theorem not_capped :
    ¬ ∀ pages countTokens fallbackTitle,
      (∀ x y, countTokens (x ++ y) ≤ countTokens x + countTokens y) →
      (∀ x y : Text, x <:+: y → countTokens x ≤ countTokens y) →
      (∀ p ∈ pages, ∀ w ∈ words p.text, countTokens w ≤ 50) →
      Capped pages countTokens fallbackTitle := by
  intro h
  have hcapped := h [⟨1, longTitle ++ text "\nb"⟩] List.length [] (fun x y => (List.length_append ..).le)
    (fun x y hxy => hxy.length_le) (by decide +kernel)
  exact absurd (hcapped (0, ⟨text "Preamble", 1, 1, sectionLead longTitle (text "Preamble") ++ text "b", 484⟩)
    (by decide +kernel)) (by decide)

end FinSight.Ingest
