import NoMercyRecomp.SwitchPlan

/-!
# The loop over the sites of any body

The loop of `fix_switches` goes over the sites of the original body and rewrites the body
further with every completed site. Two sites may be alike, and then both completions are
put in front of the first of the two lines. Whatever the body, a turn of the loop follows
the verdict on the original body: what was inserted by earlier turns is foreign to every
reading that a later turn makes.

A turn takes no line out. The files are written one after the other, and an exception
leaves the file in which it happens, and all behind it, as they were.
-/

namespace NoMercyRecomp.SwitchLoop

open TextScan SymbolTable Recompiled Contexts Growth FixSwitches SwitchPlan

/-! ## Bodies in the loop -/

/-- A body to which lines have been added: it reads as the original, every line of the
original is left, and every other line is foreign. -/
structure Follows (body newbody : List Line) (known : List Nat) : Prop where
  sees : Sees body newbody known
  keeps : ∀ line, body.count line ≤ newbody.count line
  news : ∀ line ∈ newbody, line ∈ body ∨ Foreign line

/-- The original body, to which nothing has been added. -/
theorem follows_refl (body : List Line) : Follows body body [] where
  sees := ⟨fun _ => rfl, fun _ => rfl, fun target => by simp, by simp⟩
  keeps := fun _ => Nat.le_refl _
  news := fun _ among => .inl among

section Insert

variable {body newbody : List Line} {known : List Nat} (follows : Follows body newbody known)
include follows

/-- Putting in a block of foreign lines keeps the reading, apart from the labels that the
block brings, whose targets are decoded on one line. -/
theorem Follows.insert (wanted : Line → Bool) (block : List Line) (more : List Nat)
    (present : ∃ line ∈ newbody, wanted line = true) (foreign : ∀ line ∈ block, Foreign line)
    (labels : ∀ target, block.any (isLabel target) = more.contains target)
    (once : ∀ target ∈ more, decodeLines body target = 1) :
    Follows body (insertBefore wanted block newbody) (known ++ more) := by
  obtain ⟨front, back, split, inserted⟩ := insertBefore_split wanted block newbody present
  have silent (target : Nat) : block.any (occurs (decodeText target)) = false :=
    List.any_eq_false.mpr (fun line among => by simp [(foreign line among).decodes target])
  have uncounted (target : Nat) : block.countP (decodeText target).isPrefixOf = 0 :=
    List.countP_eq_zero.mpr (fun line among => by
      simp [decodes_start target line ((foreign line among).decodes target)])
  refine ⟨⟨fun target => ?_, fun target => ?_, fun target => ?_, fun target among => ?_⟩,
    fun line => ?_, fun line among => ?_⟩
  · rw [← follows.sees.decoded target, inserted, split]
    simp only [decoded, List.any_append, silent, Bool.false_or]
  · rw [← follows.sees.decodeLines target, inserted, split]
    simp only [decodeLines, List.countP_append, uncounted, Nat.zero_add]
  · have before := follows.sees.labelled target
    rw [split, labelled, List.any_append] at before
    have contained :
        (known ++ more).contains target = (known.contains target || more.contains target) := by
      rw [Bool.eq_iff_iff]
      simp
    rw [inserted, labelled, List.any_append, List.any_append, labels target, contained,
      ← Bool.or_assoc (labelled body target), ← before]
    cases front.any (isLabel target) <;> cases back.any (isLabel target) <;>
      cases more.contains target <;> rfl
  · rcases List.mem_append.mp among with old | new
    · exact follows.sees.once target old
    · exact once target new
  · refine Nat.le_trans (follows.keeps line) ?_
    rw [inserted, split]
    simp only [List.count_append]
    omega
  · rw [inserted] at among
    rcases List.mem_append.mp among with before | among
    · exact follows.news line (split ▸ List.mem_append_left back before)
    · rcases List.mem_append.mp among with new | behind
      · exact .inr (foreign line new)
      · exact follows.news line (split ▸ List.mem_append_right front behind)

end Insert

/-- The labels that a turn adds, one after the other. The targets are decoded on one line
each, so every label finds the decode line of its target. -/
theorem Follows.labels {body newbody : List Line} {known : List Nat}
    (follows : Follows body newbody known)
    (targets : List Nat) (once : ∀ target ∈ targets, decodeLines body target = 1) :
    Follows body (addLabels targets newbody) (known ++ targets) ∧ ∀ line,
      (addLabels targets newbody).count line =
        newbody.count line + (targets.map (fun target => label target ++ [':'])).count line := by
  induction targets generalizing newbody known with
  | nil => exact ⟨by simpa [addLabels] using follows, fun line => by simp [addLabels]⟩
  | cons target rest inductionHypothesis =>
    have single := once target List.mem_cons_self
    have present : ∃ line ∈ newbody, (decodeText target).isPrefixOf line = true := by
      have some : 0 < newbody.countP (decodeText target).isPrefixOf :=
        lt_of_lt_of_eq Nat.zero_lt_one ((follows.sees.decodeLines target).trans single).symm
      exact List.countP_pos_iff.mp some
    have labelled (other : Nat) :
        [label target ++ [':']].any (isLabel other) = [target].contains other := by
      rw [List.any_cons, List.any_nil, Bool.or_false, isLabel_label, Bool.eq_iff_iff]
      simp [eq_comm]
    have next :=
      follows.insert (decodeText target).isPrefixOf [label target ++ [':']] [target] present
      (fun line among => List.mem_singleton.mp among ▸ (label_foreign target).1) labelled
      (fun other among => List.mem_singleton.mp among ▸ single)
    obtain ⟨later, counts⟩ := inductionHypothesis next
      (fun other among => once other (List.mem_cons_of_mem target among))
    refine ⟨by simpa [addLabels] using later, fun line => ?_⟩
    have here :=
      count_insertBefore (decodeText target).isPrefixOf [label target ++ [':']] newbody present line
    have shape : addLabels (target :: rest) newbody = addLabels rest
        (insertBefore (decodeText target).isPrefixOf [label target ++ [':']] newbody) := rfl
    rw [shape, counts line, here, List.map_cons, List.count_cons, List.count_cons, List.count_nil]
    omega

/-! ## One turn -/

variable (rom : List UInt8) (dump : Dump) (body : List Line)

/-- What a turn that completes a site does to the body: exactly the lines of the block, and
label lines, stand more often afterwards. -/
structure Turn (newbody after : List Line) (site : Site) (bound offset : Nat) (arms : List Arm) :
    Prop where
  follows : ∃ known, Follows body after known
  keeps : ∀ line, newbody.count line ≤ after.count line
  adds : ∀ line ∈ completion site bound offset (arms.map Arm.line),
    newbody.count line < after.count line
  only : ∀ line, newbody.count line < after.count line →
    line ∈ completion site bound offset (arms.map Arm.line) ∨ ∃ target, line = label target ++ [':']

/-- A turn follows the verdict on the original body. The entries are read from the body so
far as from the original, and the site's own line is still there to put the block before. -/
theorem fixSite_turn (newbody : List Line) (known : List Nat) (follows : Follows body newbody known)
    (s : List Line × Site) (member : s ∈ sites body) :
    match verdict rom dump body s.1 s.2 with
    | .kept => fixSite rom dump body newbody s.1 s.2 = .kept
    | .unmapped => fixSite rom dump body newbody s.1 s.2 = .unmapped
    | .failed failure => fixSite rom dump body newbody s.1 s.2 = .failed failure
    | .completed bound offset arms => ∃ after,
        fixSite rom dump body newbody s.1 s.2 = .completed after ∧
        Turn body newbody after s.2 bound offset arms := by
  obtain ⟨before, site⟩ := s
  rw [verdict]
  simp only [fixSite]
  cases guard body before with
  | none => rfl
  | some bound =>
    by_cases enough : bound ≤ ncases before
    · simp [enough]
    · simp only [enough, if_false]
      cases firstAddr body with
      | none => rfl
      | some first =>
        cases mapped : tableRomOffset dump (value 16 site.table) first with
        | none => simp only [mapped]
        | some located =>
          obtain ⟨name, offset⟩ := located
          simp only [mapped, addEntries_sees follows.sees rom dump offset _ [] [] (by simp)]
          cases read :
            entries rom dump body offset (List.range' (ncases before) (bound - ncases before)) with
          | error failure => simp only [Except.map]
          | ok arms =>
            simp only [Except.map, List.nil_append]
            refine ⟨_, rfl, ?_⟩
            have once := newLabels_once rom dump body known offset _ arms read
            obtain ⟨own, behind, split, isSite⟩ := (mem_sites body before site).mp member
            have ownIn : own ∈ body := split ▸ List.mem_append_right before List.mem_cons_self
            obtain ⟨labelled, counts⟩ := follows.labels (newLabels body known arms []) once
            have present : ∃ line ∈ addLabels (newLabels body known arms []) newbody,
                (siteRe line == some site) = true := by
              refine ⟨own, List.count_pos_iff.mp ?_, by simp [isSite]⟩
              exact Nat.lt_of_lt_of_le (List.count_pos_iff.mpr ownIn) (labelled.keeps own)
            have foreign :=
              addition_foreign body (.block site bound offset arms) ⟨own, ownIn, isSite⟩
            have unlabelled (target : Nat) :
                (completion site bound offset (arms.map Arm.line)).any (isLabel target) =
                  [].contains target := by
              rw [List.contains_nil, List.any_eq_false]
              exact fun line among =>
                by simp [block_unlabelled site bound offset arms target line among]
            have total (line : Line) := (count_insertBefore (fun line => siteRe line == some site)
              (completion site bound offset (arms.map Arm.line)) _ present line).trans
                (congrArg (· + _) (counts line))
            refine ⟨⟨_, labelled.insert _ _ [] present foreign unlabelled (by simp)⟩,
              fun line => ?_, fun line among => ?_, fun line more => ?_⟩
            · have sum := total line
              omega
            · have sum := total line
              have new := List.count_pos_iff.mpr among
              omega
            · have sum := total line
              by_cases inBlock : line ∈ completion site bound offset (arms.map Arm.line)
              · exact .inl inBlock
              · rw [List.count_eq_zero.mpr inBlock] at sum
                have inLabels : line ∈ (newLabels body known arms []).map
                    (fun target => label target ++ [':']) :=
                  List.count_pos_iff.mp (by omega)
                obtain ⟨target, _, rfl⟩ := List.mem_map.mp inLabels
                exact .inr ⟨target, rfl⟩

/-! ## The loop -/

/-- The loop comes to the remaining sites with the body so far: from the original body, turn
after turn, with no exception on the way. -/
inductive Comes : List (List Line × Site) → List Line → Prop where
  | start : Comes (sites body) body
  | passed (s : List Line × Site) (rest : List (List Line × Site)) (newbody : List Line)
      (comes : Comes (s :: rest) newbody)
      (left : ∀ after, fixSite rom dump body newbody s.1 s.2 ≠ .completed after)
      (silent : fixSite rom dump body newbody s.1 s.2 ≠ .failed .raised) : Comes rest newbody
  | completed (s : List Line × Site) (rest : List (List Line × Site)) (newbody after : List Line)
      (comes : Comes (s :: rest) newbody)
      (turn : fixSite rom dump body newbody s.1 s.2 = .completed after) : Comes rest after

/-- The body of a function that the run writes. -/
def newBody (f : GenFunc) : List Line := ((fixBody rom dump f.body).map Prod.fst).getD f.body

/-- The verdict on no site of the body ends the run. -/
def Quiet : Prop := ∀ s ∈ sites body, (verdict rom dump body s.1 s.2).raises = false

section Loop

variable {rom : List UInt8} {dump : Dump} {body : List Line}

/-- Where the loop comes to, it comes with sites of the body, and with a body to which lines
have been added. -/
theorem Comes.follows {rest : List (List Line × Site)} {newbody : List Line}
    (comes : Comes rom dump body rest newbody) :
    rest ⊆ sites body ∧ ∃ known, Follows body newbody known := by
  induction comes with
  | start => exact ⟨List.Subset.refl _, [], follows_refl body⟩
  | passed s rest newbody _ _ _ inductionHypothesis =>
    exact ⟨fun t among => inductionHypothesis.1 (List.mem_cons_of_mem s among),
      inductionHypothesis.2⟩
  | completed s rest newbody after _ turn inductionHypothesis =>
    obtain ⟨among, known, follows⟩ := inductionHypothesis
    refine ⟨fun t member => among (List.mem_cons_of_mem s member), ?_⟩
    have verdicts := fixSite_turn rom dump body newbody known follows s (among List.mem_cons_self)
    revert verdicts
    cases verdict rom dump body s.1 s.2 with
    | kept => simp [turn]
    | unmapped => simp [turn]
    | failed failure => simp [turn]
    | completed bound offset arms =>
      rintro ⟨other, same, made⟩
      rw [turn] at same
      exact Outcome.completed.inj same ▸ made.follows

/-- The function's body is what the rest of the loop makes of the body so far. By induction on the
sites that the loop has passed, none of which has raised. -/
theorem Comes.fixBody {rest : List (List Line × Site)} {newbody : List Line}
    (comes : Comes rom dump body rest newbody) :
    ∃ failed, FixSwitches.fixBody rom dump body = fixSites rom dump body rest newbody failed := by
  induction comes with
  | start => exact ⟨0, rfl⟩
  | passed s rest newbody _ left silent inductionHypothesis =>
    obtain ⟨failed, same⟩ := inductionHypothesis
    rw [same, fixSites]
    cases outcome : fixSite rom dump body newbody s.1 s.2 with
    | kept => exact ⟨failed, rfl⟩
    | unmapped => exact ⟨failed + 1, rfl⟩
    | completed after => exact absurd outcome (left after)
    | failed failure =>
      cases failure with
      | ambiguous => exact ⟨failed, rfl⟩
      | missing => exact ⟨failed + 1, rfl⟩
      | raised => exact absurd outcome silent
  | completed s rest newbody after _ turn inductionHypothesis =>
    obtain ⟨failed, same⟩ := inductionHypothesis
    exact ⟨failed, by rw [same, fixSites, turn]⟩

/-- A turn that does not end the run brings the loop to the remaining sites, with no line
taken out. -/
theorem Comes.next {s : List Line × Site} {rest : List (List Line × Site)} {newbody : List Line}
    (comes : Comes rom dump body (s :: rest) newbody)
    (silent : (verdict rom dump body s.1 s.2).raises = false) :
    ∃ after, Comes rom dump body rest after ∧ ∀ line, newbody.count line ≤ after.count line := by
  obtain ⟨among, known, follows⟩ := comes.follows
  have verdicts := fixSite_turn rom dump body newbody known follows s (among List.mem_cons_self)
  revert verdicts
  cases outcome : verdict rom dump body s.1 s.2 with
  | kept => exact fun same =>
    ⟨newbody, .passed s rest newbody comes (by simp [same]) (by simp [same]), fun _ => le_rfl⟩
  | unmapped => exact fun same =>
    ⟨newbody, .passed s rest newbody comes (by simp [same]) (by simp [same]), fun _ => le_rfl⟩
  | failed failure =>
    intro same
    refine ⟨newbody, .passed s rest newbody comes (by simp [same]) ?_, fun _ => le_rfl⟩
    rintro raised
    rw [same] at raised
    rw [outcome, Outcome.failed.inj raised] at silent
    cases silent
  | completed bound offset arms =>
    rintro ⟨after, same, made⟩
    exact ⟨after, .completed s rest newbody after comes same, made.keeps⟩

/-- From where the loop comes to, it reaches the end when no verdict on the remaining sites
ends the run, and then no line has been taken out. -/
theorem Comes.finishes {rest : List (List Line × Site)} {newbody : List Line}
    (comes : Comes rom dump body rest newbody)
    (quiet : ∀ s ∈ rest, (verdict rom dump body s.1 s.2).raises = false) :
    ∃ final failed, FixSwitches.fixBody rom dump body = some (final, failed) ∧
      Comes rom dump body [] final ∧ ∀ line, newbody.count line ≤ final.count line := by
  induction rest generalizing newbody with
  | nil =>
    obtain ⟨failed, same⟩ := comes.fixBody
    exact ⟨newbody, failed, same, comes, fun _ => le_rfl⟩
  | cons s rest inductionHypothesis =>
    obtain ⟨after, later, keeps⟩ := comes.next (quiet s List.mem_cons_self)
    obtain ⟨final, failed, same, ends, counts⟩ :=
      inductionHypothesis later (fun t member => quiet t (List.mem_cons_of_mem s member))
    exact ⟨final, failed, same, ends, fun line => le_trans (keeps line) (counts line)⟩

/-- The loop comes to every suffix of the sites when no verdict ends the run. -/
theorem Quiet.comes (quiet : Quiet rom dump body) (done rest : List (List Line × Site))
    (split : sites body = done ++ rest) : ∃ newbody, Comes rom dump body rest newbody := by
  induction done using List.reverseRecOn generalizing rest with
  | nil =>
    rw [List.nil_append] at split
    exact ⟨body, split ▸ .start⟩
  | append_singleton done s inductionHypothesis =>
    have parts : sites body = done ++ s :: rest := by
      rw [split, List.append_assoc, List.singleton_append]
    obtain ⟨newbody, comes⟩ := inductionHypothesis (s :: rest) parts
    have silent := quiet s (parts ▸ List.mem_append_right done List.mem_cons_self)
    obtain ⟨after, later, _⟩ := comes.next silent
    exact ⟨after, later⟩

/-- A body is rewritten to the end exactly when no verdict ends the run. The first verdict
that does so is reached, and its turn raises. -/
theorem fixBody_isSome :
    (FixSwitches.fixBody rom dump body).isSome = true ↔ Quiet rom dump body := by
  constructor
  · intro finished
    by_contra loud
    have raised (rest : List (List Line × Site)) (newbody : List Line)
        (comes : Comes rom dump body rest newbody)
        (some : ∃ s ∈ rest, (verdict rom dump body s.1 s.2).raises = true) :
        FixSwitches.fixBody rom dump body = none := by
      induction rest generalizing newbody with
      | nil => simp at some
      | cons s rest inductionHypothesis =>
        cases here : (verdict rom dump body s.1 s.2).raises with
        | false =>
          obtain ⟨after, later, _⟩ := comes.next here
          exact inductionHypothesis after later (by simpa [here] using some)
        | true =>
          obtain ⟨among, known, follows⟩ := comes.follows
          have verdicts :=
            fixSite_turn rom dump body newbody known follows s (among List.mem_cons_self)
          obtain ⟨failed, same⟩ := comes.fixBody
          have ending : verdict rom dump body s.1 s.2 = .failed .raised := by
            unfold Verdict.raises at here
            split at here
            · assumption
            · cases here
          rw [ending] at verdicts
          rw [same, fixSites, verdicts]
    have some : ∃ s ∈ sites body, (verdict rom dump body s.1 s.2).raises = true := by
      simpa [Quiet] using loud
    rw [raised _ _ .start some] at finished
    cases finished
  · intro quiet
    obtain ⟨final, failed, same, _⟩ := (Comes.start : Comes rom dump body _ _).finishes quiet
    rw [same]
    rfl

/-- The written body follows the original one. -/
theorem newBody_follows (f : GenFunc) : ∃ known, Follows f.body (newBody rom dump f) known := by
  rw [newBody]
  cases run : FixSwitches.fixBody rom dump f.body with
  | none => exact ⟨[], follows_refl f.body⟩
  | some pair =>
    have quiet : Quiet rom dump f.body := fixBody_isSome.mp (by rw [run]; rfl)
    obtain ⟨final, failed, same, ends, _⟩ :=
      (Comes.start : Comes rom dump f.body _ _).finishes quiet
    obtain rfl := Option.some.inj (run.symm.trans same)
    exact ends.follows.2

end Loop

/-! ## The files on disk -/

section Files

variable (rom : List UInt8) (dump : Dump)

/-- No exception ends the run up to the file of a number, that file included. -/
def QuietTo (files : List (List Line)) (n : Nat) : Prop :=
  ∀ m ≤ n, ∀ file, files[m]? = some file → ∀ f ∈ functions file, Quiet rom dump f.body

/-- The failures of some functions are counted exactly when no verdict on their sites ends
the run. -/
theorem failures_isSome (list : List GenFunc) :
    (failures rom dump list).isSome = true ↔ ∀ f ∈ list, Quiet rom dump f.body := by
  induction list with
  | nil => simp [failures]
  | cons f rest inductionHypothesis =>
    rw [List.forall_mem_cons, ← inductionHypothesis, ← fixBody_isSome, failures]
    cases fixBody rom dump f.body with
    | none => simp
    | some pair => cases failures rom dump rest <;> simp

/-- A file is written with the new bodies, unless a verdict on one of its sites ends the
run. -/
theorem fixFile_cases (file : List Line) :
    ((∀ f ∈ functions file, Quiet rom dump f.body) ∧
        ∃ failed, fixFile rom dump file =
          some (changeFuncs (GenFunc.withBody (newBody rom dump)) file, failed)) ∨
      (¬(∀ f ∈ functions file, Quiet rom dump f.body) ∧ fixFile rom dump file = none) := by
  cases counted : failures rom dump (functions file) with
  | none =>
    refine .inr ⟨fun quiet => ?_, by rw [fixFile, counted]; rfl⟩
    have some := (failures_isSome rom dump (functions file)).mpr quiet
    rw [counted] at some
    cases some
  | some failed =>
    refine .inl ⟨(failures_isSome rom dump (functions file)).mp (by rw [counted]; rfl), failed, ?_⟩
    rw [fixFile, counted, ← rewrite_change]
    rfl

/-- The files before the one in which an exception happens are rewritten, and it and those
behind it are left. The induction follows the run over the files. -/
theorem onDisk_get (files : List (List Line)) (n : Nat) (file : List Line)
    (read : files[n]? = some file) :
    (QuietTo rom dump files n ∧ (onDisk rom dump files)[n]? =
        some (changeFuncs (GenFunc.withBody (newBody rom dump)) file)) ∨
      (¬QuietTo rom dump files n ∧ (onDisk rom dump files)[n]? = some file) := by
  induction files generalizing n with
  | nil => simp at read
  | cons first rest inductionHypothesis =>
    obtain ⟨quiet, failed, written⟩ | ⟨loud, raised⟩ := fixFile_cases rom dump first
    · cases n with
      | zero =>
        obtain rfl : first = file := Option.some.inj read
        refine .inl ⟨fun m bound other here => ?_, by rw [onDisk, written]; rfl⟩
        obtain rfl := Nat.le_zero.mp bound
        obtain rfl : first = other := Option.some.inj here
        exact quiet
      | succ n =>
        have same : QuietTo rom dump (first :: rest) (n + 1) ↔ QuietTo rom dump rest n := by
          constructor
          · intro quietTo m bound other here
            exact quietTo (m + 1) (Nat.succ_le_succ bound) other here
          · intro quietTo m bound other here
            cases m with
            | zero =>
              obtain rfl : first = other := Option.some.inj here
              exact quiet
            | succ m => exact quietTo m (Nat.le_of_succ_le_succ bound) other here
        rw [same, onDisk, written]
        exact inductionHypothesis n read
    · refine .inr ⟨fun quietTo => loud (quietTo 0 (Nat.zero_le n) first rfl), ?_⟩
      rw [onDisk, raised]
      exact read

/-- A reader finds the function with the new body where it found the function: every line of
a new body is a line of the old one or foreign, and closes nothing. -/
theorem newBody_keeps (file : List Line) (f : GenFunc) (inFile : f ∈ functions file) :
    Keeps (GenFunc.withBody (newBody rom dump)) f where
  name := rfl
  close := rfl
  inside := by
    intro line among
    obtain ⟨known, follows⟩ : ∃ known,
        Follows f.body (newBody rom dump f) known := newBody_follows f
    obtain own | foreign := follows.news line among
    · exact functions_open file f inFile line own
    · exact foreign.closes

/-- In a run that returns, no verdict on any site raises: a raise in one file is one of the whole
run. -/
theorem fixTree_quiet (files after : List (List Line)) (failed : Nat)
    (run : FixSwitches.fixTree rom dump files = some (after, failed)) (n : Nat) :
    QuietTo rom dump files n := by
  have all : ∀ file ∈ files, ∀ f ∈ functions file, Quiet rom dump f.body := by
    induction files generalizing after failed with
    | nil => exact fun file among => absurd among List.not_mem_nil
    | cons first rest inductionHypothesis =>
      rw [FixSwitches.fixTree] at run
      obtain ⟨⟨written, count⟩, here, run⟩ := Option.bind_eq_some_iff.mp run
      obtain ⟨⟨others, more⟩, later, _⟩ := Option.bind_eq_some_iff.mp run
      obtain ⟨quiet, _⟩ | ⟨_, raised⟩ := fixFile_cases rom dump first
      · exact List.forall_mem_cons.mpr ⟨quiet, inductionHypothesis others more later⟩
      · rw [raised] at here
        cases here
  exact fun m _ file read => all file (List.mem_of_getElem? read)

/-- What stands on disk in the place of a function after a run: the function with its new
body, or the function as it was when an exception happened in its file or before it. -/
theorem onDisk_inPlace (files : List (List Line)) (f g : GenFunc) :
    InPlace files (onDisk rom dump files) f g ↔ ∃ (n : Nat) (file : List Line),
      files[n]? = some file ∧ f ∈ functions file ∧
        ((QuietTo rom dump files n ∧ g = GenFunc.withBody (newBody rom dump) f) ∨
          (¬QuietTo rom dump files n ∧ g = f)) := by
  have unchanged (file : List Line) : changeFuncs id file = file := by
    refine Eq.trans (List.flatMap_congr (fun piece _ => ?_)) (pieces_lines file)
    cases piece <;> rfl
  have own (file : List Line) (h : GenFunc) : InFile file file h g ↔ h ∈ functions file ∧
      g = h := by
    have change := inFile_change id file
      (fun h inFile => ⟨rfl, rfl, functions_open file h inFile⟩) h g
    rwa [unchanged] at change
  have changed (file : List Line) := inFile_change (GenFunc.withBody (newBody rom dump)) file
    (fun h inFile => newBody_keeps rom dump file h inFile) f g
  constructor
  · rintro ⟨n, file, after, read, wrote, inFile⟩
    obtain ⟨quiet, here⟩ | ⟨loud, here⟩ := onDisk_get rom dump files n file read
    · obtain rfl := Option.some.inj (wrote.symm.trans here)
      obtain ⟨isFunc, same⟩ := (changed file).mp inFile
      exact ⟨n, file, read, isFunc, .inl ⟨quiet, same⟩⟩
    · obtain rfl := Option.some.inj (wrote.symm.trans here)
      obtain ⟨isFunc, same⟩ := (own _ f).mp inFile
      exact ⟨n, _, read, isFunc, .inr ⟨loud, same⟩⟩
  · rintro ⟨n, file, read, isFunc, outcome⟩
    obtain ⟨quiet, here⟩ | ⟨loud, here⟩ := onDisk_get rom dump files n file read
    · obtain ⟨_, same⟩ | ⟨loud, _⟩ := outcome
      · exact ⟨n, file, _, read, here, (changed file).mpr ⟨isFunc, same⟩⟩
      · exact absurd quiet loud
    · obtain ⟨quiet, _⟩ | ⟨_, same⟩ := outcome
      · exact absurd quiet loud
      · exact ⟨n, file, _, read, here, (own file f).mpr ⟨isFunc, same⟩⟩

end Files

end NoMercyRecomp.SwitchLoop
