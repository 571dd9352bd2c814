import RedoLog.Proofs.Outcome
import RedoLog.Proofs.Recovery

/-!
# What is reported of a faulty text

Each problem names the line and the column of one fault. The places tell the faults apart, so the
characters that are reported can be blanked by their places alone.
-/

set_option autoImplicit false

namespace RedoLog.Lexer

def faultsAt : List Char → List Piece → List (List Char × LexFault)
  | _, [] => []
  | before, p :: ps =>
    match p.item with
    | .token _ => faultsAt (before ++ (p.gap ++ p.text)) ps
    | .fault fault => (before ++ p.gap, fault) :: faultsAt (before ++ (p.gap ++ p.text)) ps

def unknownAt : List Char → List Piece → List (List Char × Char)
  | _, [] => []
  | before, p :: ps =>
    match p.item with
    | .fault (.unknown c) => (before ++ p.gap, c) :: unknownAt (before ++ (p.gap ++ p.text)) ps
    | _ => unknownAt (before ++ (p.gap ++ p.text)) ps

def report (f : List Char × LexFault) : Problem :=
  ⟨Text.lineAfter f.1, Text.columnAfter f.1, f.2.message⟩

theorem faults_eq (before : List Char) (ps : List Piece) :
    faults (Text.byteLength before) ps =
      (faultsAt before ps).map fun f => (Text.byteLength f.1, f.2) := by
  induction ps generalizing before with
  | nil => rfl
  | cons p ps ih =>
    have hmore := ih (before ++ (p.gap ++ p.text))
    simp only [Text.byte_length_append, ← Nat.add_assoc] at hmore
    cases hitem : p.item with
    | token kind => simp [faults, faultsAt, hitem, hmore]
    | fault fault => simp [faults, faultsAt, hitem, hmore, Text.byte_length_append]

theorem prefix_of_mem_faults_at {before : List Char} {ps : List Piece} :
    ∀ f ∈ faultsAt before ps, ∃ more, f.1 = before ++ more := by
  induction ps generalizing before with
  | nil => simp [faultsAt]
  | cons p ps ih =>
    intro f hf
    cases hitem : p.item with
    | token kind =>
      simp only [faultsAt, hitem] at hf
      obtain ⟨more, hmore⟩ := ih f hf
      exact ⟨p.gap ++ p.text ++ more, by simp [hmore]⟩
    | fault fault =>
      simp only [faultsAt, hitem, List.mem_cons] at hf
      rcases hf with rfl | hf
      · exact ⟨p.gap, rfl⟩
      · obtain ⟨more, hmore⟩ := ih f hf
        exact ⟨p.gap ++ p.text ++ more, by simp [hmore]⟩

section Cutting

variable {cs last : List Char} {ps : List Piece}

theorem Cuts.split_of_mem (h : Cuts cs ps last) (before : List Char) :
    ∀ f ∈ faultsAt before ps, ∃ c behind, before ++ cs = f.1 ++ c :: behind ∧
      ∀ d, f.2 = .unknown d → d = c := by
  induction h generalizing before with
  | last => simp [faultsAt]
  | token _ _ _ _ ih =>
    intro f hf
    obtain ⟨c, behind, happend, hc⟩ := ih _ f hf
    exact ⟨c, behind, by simpa using happend, hc⟩
  | @unknown gap rest last c ps _ _ _ ih =>
    intro f hf
    simp only [faultsAt, List.mem_cons] at hf
    rcases hf with rfl | hf
    · exact ⟨c, rest, by simp, by simp⟩
    · obtain ⟨d, behind, happend, hd⟩ := ih _ f hf
      exact ⟨d, behind, by simpa using happend, hd⟩
  | @unclosed gap text c fault _ _ _ hfault =>
    intro f hf
    obtain rfl : f = (before ++ gap, fault) := by simpa [faultsAt] using hf
    refine ⟨c, text, by simp, ?_⟩
    rintro d rfl
    simp at hfault

theorem Cuts.ordered (h : Cuts cs ps last) (before : List Char) :
    (faultsAt before ps).Pairwise fun f g => ∃ c more, g.1 = f.1 ++ c :: more := by
  induction h generalizing before with
  | last => exact .nil
  | token _ _ _ _ ih => exact ih _
  | @unknown gap rest last c ps _ _ _ ih =>
    refine .cons (fun g hg => ?_) (ih _)
    obtain ⟨more, hmore⟩ := prefix_of_mem_faults_at g hg
    exact ⟨c, more, by simpa using hmore⟩
  | unclosed => exact List.pairwise_singleton _ _

/-- All faults but the last one are characters that start no token, and the last one may be a quoted
text or name that is open. That one is still there, at the same place, in the blanked text. -/
theorem Cuts.faults_at_mended (h : Cuts cs ps last) {before before' passed : List Char}
    (hposition : Text.position (before' ++ passed) = Text.position before) :
    ∃ open? : Option (List Char × LexFault),
      faultsAt before ps =
        (unknownAt before ps).map (fun u => (u.1, LexFault.unknown u.2)) ++ open?.toList ∧
      (∀ f ∈ open?, f.2 = .openText ∨ f.2 = .openName) ∧
      (faultsAt before' (mended passed ps)).map report = (open?.map report).toList := by
  induction h generalizing before before' passed with
  | last => exact ⟨none, rfl, by simp, rfl⟩
  | @token gap text rest last c kind ps hgap hstart hscan hmore ih =>
    have hposition' : Text.position (before' ++ ((passed ++ gap) ++ (c :: text)) ++ []) =
        Text.position (before ++ (gap ++ (c :: text))) := by
      simpa using Text.position_congr hposition (gap ++ c :: text)
    exact ih hposition'
  | @unknown gap rest last c ps hgap hc hmore ih =>
    have hposition' : Text.position (before' ++ (passed ++ (gap ++ [' ']))) =
        Text.position (before ++ (gap ++ [c])) := by
      have hpassed := Text.position_congr hposition gap
      rw [← List.append_assoc before gap, Text.position_snoc_of_ne _ hc, ← hpassed,
        ← Text.position_snoc_of_ne _ (by decide : ' ' ≠ '\n')]
      simp
    obtain ⟨open?, hfaults, hopen, hmended⟩ := ih hposition'
    exact ⟨open?, by simp [faultsAt, unknownAt, hfaults], hopen, hmended⟩
  | @unclosed gap text c fault hgap hstart hscan hfault =>
    have hposition' := Text.position_congr hposition gap
    obtain ⟨hline, hcolumn⟩ := Prod.mk.inj hposition'
    rw [List.append_assoc] at hline hcolumn
    refine ⟨some (before ++ gap, fault), ?_, by simpa using hfault, ?_⟩
    · rcases hfault with rfl | rfl <;> simp [faultsAt, unknownAt]
    · rcases hfault with rfl | rfl <;> simp [faultsAt, mended, report, hline, hcolumn]

theorem length_of_mem_unknown_at (before : List Char) (ps : List Piece) :
    ∀ cs ∈ (unknownAt before ps).map Prod.fst, before.length ≤ cs.length := by
  induction ps generalizing before with
  | nil => simp [unknownAt]
  | cons p ps ih =>
    intro cs hcs
    have hmore : cs ∈ (unknownAt (before ++ (p.gap ++ p.text)) ps).map Prod.fst →
        before.length ≤ cs.length := by
      intro hcs
      have hlength := ih _ cs hcs
      simp only [List.length_append] at hlength
      omega
    unfold unknownAt at hcs
    split at hcs
    · rcases List.mem_cons.mp hcs with rfl | hcs
      · simp
      · exact hmore hcs
    · exact hmore hcs

def PlacesOf (places : List (Nat × Nat)) (before cs : List Char) (marks : List (List Char)) : Prop :=
  ∀ front, front <+: cs → (Text.position (before ++ front) ∈ places ↔ before ++ front ∈ marks)

theorem PlacesOf.blank_at_append {before passed rest : List Char} {places : List (Nat × Nat)}
    {marks : List (List Char)} (h : PlacesOf places before (passed ++ rest) marks)
    (hmarks : ∀ mark ∈ marks, (before ++ passed).length ≤ mark.length) :
    Text.blankAt places before (passed ++ rest) =
      passed ++ Text.blankAt places (before ++ passed) rest := by
  rw [Text.blank_at_append, Text.blank_at_of_not_mem places fun front c behind hsplit hmem => ?_]
  have hfront : front <+: passed ++ rest := ⟨c :: behind ++ rest, by simp [hsplit]⟩
  have hlength := hmarks _ ((h front hfront).mp hmem)
  rw [hsplit] at hlength
  simp only [List.length_append, List.length_cons] at hlength
  omega

theorem PlacesOf.behind {before passed rest : List Char} {places : List (Nat × Nat)}
    {marks : List (List Char)} (h : PlacesOf places before (passed ++ rest) marks) :
    PlacesOf places (before ++ passed) rest marks := by
  intro front hfront
  have hmore := h (passed ++ front) ((List.prefix_append_right_inj passed).mpr hfront)
  rwa [← List.append_assoc] at hmore

theorem Cuts.blank_at_eq (h : Cuts cs ps last) {before : List Char} {places : List (Nat × Nat)}
    (hplaces : PlacesOf places before cs ((unknownAt before ps).map Prod.fst)) :
    Text.blankAt places before cs = blanked ps last := by
  induction h generalizing before with
  | @last cs _ =>
    rw [← List.append_nil cs] at hplaces ⊢
    exact hplaces.blank_at_append (by simp [unknownAt])
  | @token gap text rest last c kind ps _ _ _ _ ih =>
    rw [← List.append_assoc] at hplaces ⊢
    have hlater := length_of_mem_unknown_at (before ++ (gap ++ c :: text)) ps
    rw [hplaces.blank_at_append hlater, ih hplaces.behind, List.append_assoc]
    rfl
  | @unknown gap rest last c ps _ _ _ ih =>
    have hfirst : Text.position (before ++ gap) ∈ places :=
      (hplaces gap (List.prefix_append _ _)).mpr (List.mem_cons_self ..)
    have hlater := length_of_mem_unknown_at (before ++ (gap ++ [c])) ps
    have hrest : PlacesOf places (before ++ gap ++ [c]) rest
        ((unknownAt (before ++ (gap ++ [c])) ps).map Prod.fst) := by
      intro front hfront
      have hne : before ++ gap ++ [c] ++ front ≠ before ++ gap := by simp
      rw [hplaces.behind.behind front hfront]
      exact List.mem_cons.trans (or_iff_right hne)
    rw [hplaces.blank_at_append]
    · rw [List.singleton_append, Text.blankAt, if_pos hfirst]
      rw [List.append_assoc] at hrest ⊢
      rw [ih hrest]
      rfl
    · refine List.forall_mem_cons.mpr ⟨Nat.le_refl _, fun mark hmark => ?_⟩
      have hlength := hlater mark hmark
      simp only [List.length_append] at hlength ⊢
      omega
  | @unclosed gap text c fault _ _ _ hfault =>
    have hnone : unknownAt before [⟨gap, .fault fault, c :: text⟩] = [] := by
      rcases hfault with rfl | rfl <;> rfl
    rw [hnone, ← List.append_nil (gap ++ c :: text)] at hplaces
    rw [← List.append_nil (gap ++ c :: text), hplaces.blank_at_append (by simp)]
    rcases hfault with rfl | rfl <;> simp [blanked, Text.blankAt]

end Cutting

def reports (source : List Char) : List Problem :=
  (faultsAt [] (allPieces source)).map report

/-- A source is cut into tokens if it has no faults, and else they are reported in their order. -/
theorem lex_reports (source : List Char) :
    (reports source = [] ∧ ∃ ts, lex source = .ok ts) ∨
      reports source ≠ [] ∧ lex source = .error (reports source) := by
  have hcuts := cuts_pieces source.length source (Nat.le_refl _)
  have hfaults : faults 0 (pieces source.length source).1 = _ :=
    faults_eq [] (allPieces source)
  have hreport : (faults 0 (pieces source.length source).1).map
      (fun f => Problem.locate source f.1 f.2.message) = reports source := by
    rw [hfaults, List.map_map]
    refine List.map_congr_left fun f hf => ?_
    obtain ⟨c, behind, happend, -⟩ := hcuts.split_of_mem [] f hf
    rw [List.nil_append] at happend
    rw [Function.comp_apply, happend, Problem.locate_byte_length]
    rfl
  cases hall : faults 0 (pieces source.length source).1 with
  | nil =>
    rw [hall] at hreport
    exact Or.inl ⟨hreport.symm, place 0 0 (pieces source.length source).1, by simp [lex, hall]⟩
  | cons f fs =>
    rw [hall] at hreport
    exact Or.inr ⟨by simp [← hreport], by rw [← hreport]; simp [lex, hall]⟩

theorem reports_ordered (source : List Char) :
    (reports source).Pairwise fun p q => Text.Earlier p.position q.position := by
  have hcuts := cuts_pieces source.length source (Nat.le_refl _)
  rw [reports, List.pairwise_map]
  refine (hcuts.ordered []).imp ?_
  rintro f g ⟨c, more, hmore⟩
  have hearlier := Text.earlier_append f.1 (List.cons_ne_nil c more)
  rwa [← hmore] at hearlier

theorem split_of_unknown {source before : List Char} {c : Char}
    (h : (before, LexFault.unknown c) ∈ faultsAt [] (allPieces source)) :
    ∃ behind, source = before ++ c :: behind := by
  have hcuts := cuts_pieces source.length source (Nat.le_refl _)
  obtain ⟨d, behind, happend, hd⟩ := hcuts.split_of_mem [] _ h
  obtain rfl := hd c rfl
  exact ⟨behind, happend⟩

/-- The reports are of characters that start no token, and perhaps of a quoted text that is open.
With blanks for those characters, only the latter is reported. -/
theorem reports_split (source : List Char) :
    ∃ (unknown : List (List Char × Char)) (open? : Option (List Char × LexFault)),
      reports source =
        unknown.map (fun u => report (u.1, .unknown u.2)) ++ (open?.map report).toList ∧
      (∀ u ∈ unknown, ∃ behind, source = u.1 ++ u.2 :: behind) ∧
      (∀ f ∈ open?, f.2 = .openText ∨ f.2 = .openName) ∧
      reports (Text.blankAt (unknown.map fun u => Text.position u.1) [] source) =
        (open?.map report).toList := by
  have hcuts := cuts_pieces source.length source (Nat.le_refl _)
  obtain ⟨open?, hfaults, hopen, hmended⟩ := hcuts.faults_at_mended (List.append_nil _ ▸ rfl :
    Text.position ([] ++ []) = Text.position [])
  have hpieces := hcuts.all_pieces_blanked is_gap_nil
  rw [← allPieces] at hcuts hfaults hmended hpieces
  have hunknown : ∀ u ∈ unknownAt [] (allPieces source),
      ∃ behind, source = u.1 ++ u.2 :: behind := by
    intro u hu
    apply split_of_unknown
    rw [hfaults]
    exact List.mem_append_left _ (List.mem_map_of_mem hu)
  refine ⟨unknownAt [] (allPieces source), open?, ?_, hunknown, hopen, ?_⟩
  · rw [reports, hfaults]
    cases open? <;> simp
  · have hblank : Text.blankAt ((unknownAt [] (allPieces source)).map fun u => Text.position u.1) []
        source = blanked (allPieces source) (pieces source.length source).2 := by
      apply hcuts.blank_at_eq
      rintro front ⟨behind, hfront⟩
      rw [List.nil_append, List.mem_map, List.mem_map]
      constructor
      · rintro ⟨u, hu, hposition⟩
        obtain ⟨more, hmore⟩ := hunknown u hu
        exact ⟨u, hu, Text.eq_of_position_eq (hmore.symm.trans hfront.symm) hposition⟩
      · rintro ⟨u, hu, rfl⟩
        exact ⟨u, hu, rfl⟩
    rw [hblank, reports, ← hmended, ← hpieces, List.nil_append]

end RedoLog.Lexer

namespace RedoLog

theorem tokenize_reports (source : String) :
    (Lexer.reports source.toList = [] ∧ ∃ ts, tokenize source = .ok ts) ∨
      Lexer.reports source.toList ≠ [] ∧
        tokenize source = .error (Lexer.reports source.toList) := by
  rcases Lexer.lex_reports source.toList with ⟨hnone, ts, hlex⟩ | ⟨hne, hlex⟩
  · exact Or.inl ⟨hnone, ts ++ [Lexer.endToken source.toList ts.length], by
      simp [tokenize, hlex, Except.map]⟩
  · exact Or.inr ⟨hne, by simp [tokenize, hlex, Except.map]⟩

theorem problems_of_tokenize {source : String} {problems : List Problem}
    (h : tokenize source = .error problems) :
    problems = Lexer.reports source.toList ∧ problems ≠ [] := by
  rcases tokenize_reports source with ⟨-, ts, hts⟩ | ⟨hne, herror⟩
  · rw [hts] at h
    cases h
  · obtain rfl := Except.error.inj (herror.symm.trans h)
    exact ⟨rfl, hne⟩

def blankReported (source : String) (problems : List Problem) : String :=
  String.ofList (Text.blankAt (problems.map Problem.position) [] source.toList)

/-- The problems of a source that is not cut into tokens are in the order of their places. They name
the characters that start no token, and at the end perhaps a text or a name that nothing closes.
With a blank for each of those characters, nothing but the latter is reported, at the same place. -/
theorem tokenize_recovers (source : String) (problems : List Problem)
    (h : tokenize source = .error problems) :
    ∃ (unknown : List Problem) (open? : Option Problem),
      problems = unknown ++ open?.toList ∧ problems ≠ [] ∧
      (problems.Pairwise fun p q => Text.Earlier p.position q.position) ∧
      (∀ p ∈ unknown, ∃ before c behind, source.toList = before ++ c :: behind ∧
        p = ⟨Text.lineAfter before, Text.columnAfter before, (LexFault.unknown c).message⟩) ∧
      (∀ p ∈ open?, p.message = LexFault.openText.message ∨
        p.message = LexFault.openName.message) ∧
      match open? with
      | none => ∃ ts, tokenize (blankReported source unknown) = .ok ts
      | some p => tokenize (blankReported source unknown) = .error [p] := by
  obtain ⟨rfl, hne⟩ := problems_of_tokenize h
  obtain ⟨unknown, open?, hsplit, hunknown, hopen, hblanked⟩ := Lexer.reports_split source.toList
  refine ⟨unknown.map fun u => Lexer.report (u.1, .unknown u.2), open?.map Lexer.report, hsplit,
    hne, Lexer.reports_ordered source.toList, ?_, ?_, ?_⟩
  · rw [List.forall_mem_map]
    intro u hu
    obtain ⟨behind, hbehind⟩ := hunknown u hu
    exact ⟨u.1, u.2, behind, hbehind, rfl⟩
  · intro p hp
    obtain ⟨f, hf, rfl⟩ := Option.map_eq_some_iff.mp hp
    exact (hopen f hf).imp (congrArg LexFault.message) (congrArg LexFault.message)
  · have htext : (blankReported source
        (unknown.map fun u => Lexer.report (u.1, .unknown u.2))).toList =
          Text.blankAt (unknown.map fun u => Text.position u.1) [] source.toList := by
      rw [blankReported, String.toList_ofList, List.map_map]
      rfl
    rw [← htext] at hblanked
    have hreports := tokenize_reports
      (blankReported source (unknown.map fun u => Lexer.report (u.1, .unknown u.2)))
    rw [hblanked] at hreports
    cases open? with
    | none => simpa using hreports
    | some f => simpa using hreports

def faultySource : String :=
  "a ü\n<@=/@1 \"b"

theorem tokenize_faulty_source :
    ∃ problems, tokenize faultySource = .error problems ∧
      problems.map Problem.position = [(1, 2), (2, 1), (2, 3), (2, 4), (2, 7)] ∧
      blankReported faultySource (problems.take 4) = "a  \n< =  1 \"b" ∧
      (problems.Pairwise fun p q => Text.Earlier p.position q.position) ∧
      ∃ unknown open?, problems = unknown ++ Option.toList open? ∧
        match open? with
        | none => ∃ ts, tokenize (blankReported faultySource unknown) = .ok ts
        | some p => tokenize (blankReported faultySource unknown) = .error [p] := by
  have hfailure : (failure? (tokenize faultySource)).map (fun problems =>
      (problems.map Problem.position, blankReported faultySource (problems.take 4))) =
        some ([(1, 2), (2, 1), (2, 3), (2, 4), (2, 7)], "a  \n< =  1 \"b") := by
    decide +kernel
  obtain ⟨problems, hproblems, hvalues⟩ := Option.map_eq_some_iff.mp hfailure
  obtain ⟨hpositions, hblanked⟩ := Prod.mk.inj hvalues
  have herror := error_of_failure hproblems
  obtain ⟨unknown, open?, hsplit, -, hordered, -, -, hagain⟩ :=
    tokenize_recovers faultySource problems herror
  exact ⟨problems, herror, hpositions, hblanked, hordered, unknown, open?, hsplit, hagain⟩

end RedoLog
