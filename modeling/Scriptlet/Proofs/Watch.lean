import Mathlib.Data.List.Induction
import Scriptlet.Proofs.Agenda
import Scriptlet.Proofs.Cache
import Scriptlet.Proofs.Diagnostic
import Scriptlet.Watch

/-!
# What a watcher skips

A watcher skips only repeats, and all of them as long as it has room. Between two checks the files
may change in any way, so a check is a path together with the files as they are at that time
(`Visit`). Of the store of digests two things are used (`DigestStore.IsLawful`): what it gives is
what was added last, and it forgets nothing while it has room. Then after any checks the digests
last added are those of the texts read last (`exists_calls`), and a check comes to what the history
says (`check_of_isLawful`). The adaptive cache is such a store (`isLawful_empty`).
-/

namespace Scriptlet

/-! ### Stores -/

/-- A call to a store of digests. -/
inductive StoreCall where
  /-- A path is asked for. -/
  | get (p : Text)
  /-- A digest is added for a path. -/
  | add (p : Text) (d : UInt64)

namespace StoreCall

/-- The digest that a call adds for a path, if it does. -/
def added? (p : Text) : StoreCall → Option UInt64
  | get _ => none
  | add p' d => if p' = p then some d else none

/-- The path that a call adds a digest for, if it does. -/
def path? : StoreCall → Option Text
  | get _ => none
  | add p _ => some p

/-- The digest last added for a path. -/
def lastAdded (calls : List StoreCall) (p : Text) : Option UInt64 :=
  calls.reverse.findSome? (added? p)

/-- The paths that digests were added for, one for each time. -/
def addedPaths (calls : List StoreCall) : List Text := calls.filterMap path?

/-- The store after calls, the first of them first. -/
def after {σ : Type} [DigestStore σ] (s : σ) (calls : List StoreCall) : σ :=
  calls.foldl (fun s c => match c with
    | get p => (DigestStore.get s p).2
    | add p d => DigestStore.add s p d) s

section

variable {σ : Type} [DigestStore σ] (s : σ) (calls : List StoreCall) (p : Text) (d : UInt64)

theorem after_concat_get : after s (calls ++ [.get p]) = (DigestStore.get (after s calls) p).2 := by
  simp [after]

theorem after_concat_add : after s (calls ++ [.add p d]) = DigestStore.add (after s calls) p d := by
  simp [after]

theorem lastAdded_concat_get : lastAdded (calls ++ [.get p]) = lastAdded calls := by
  funext p'
  rw [lastAdded, List.reverse_concat, List.findSome?_cons]
  rfl

theorem lastAdded_concat_add :
    lastAdded (calls ++ [.add p d]) = Function.update (lastAdded calls) p (some d) := by
  funext p'
  by_cases hp : p' = p
  · subst hp
    simp [lastAdded, added?]
  · simp [lastAdded, added?, Function.update_of_ne hp, Ne.symm hp]

theorem addedPaths_concat_get : addedPaths (calls ++ [.get p]) = addedPaths calls := by
  simp [addedPaths, path?]

theorem addedPaths_concat_add : addedPaths (calls ++ [.add p d]) = addedPaths calls ++ [p] := by
  simp [addedPaths, path?]

theorem mem_addedPaths {calls : List StoreCall} {p : Text} (h : lastAdded calls p ≠ none) :
    p ∈ addedPaths calls := by
  obtain ⟨d, hd⟩ := Option.ne_none_iff_exists'.1 h
  obtain ⟨c, hc, hadded⟩ := List.exists_of_findSome?_eq_some hd
  refine List.mem_filterMap.2 ⟨c, List.mem_reverse.1 hc, ?_⟩
  cases c with
  | get p' => cases hadded
  | add p' d' =>
    rw [added?, Option.ite_none_right_eq_some] at hadded
    rw [path?, hadded.1]

end

end StoreCall

/-- What is asked of a store, which begins as `s` and has room for `size` paths: after any calls,
what it gives for a path is the digest last added for it, or nothing; and it has forgotten nothing
if no more paths were added than there is room for. -/
structure DigestStore.IsLawful {σ : Type} [DigestStore σ] (s : σ) (size : Nat) : Prop where
  last : ∀ calls p d, (get (StoreCall.after s calls) p).1 = some d →
    StoreCall.lastAdded calls p = some d
  kept : ∀ calls p, (StoreCall.addedPaths calls).dedup.length ≤ size →
    (get (StoreCall.after s calls) p).1 = StoreCall.lastAdded calls p

namespace Cache

theorem size_after (size : Nat) (calls : List StoreCall) :
    (StoreCall.after (empty size : Cache UInt64) calls).size = size := by
  induction calls using List.reverseRecOn with
  | nil => rfl
  | append_singleton calls c ih =>
    cases c with
    | get p =>
      rw [StoreCall.after_concat_get]
      exact (get_size _ p).trans ih
    | add p d =>
      rw [StoreCall.after_concat_add]
      exact (add_size _ p d).trans ih

/-- **The cache knows no old digest.** -/
theorem faithful_after (size : Nat) (calls : List StoreCall) :
    Faithful (StoreCall.after (empty size) calls) (StoreCall.lastAdded calls) := by
  induction calls using List.reverseRecOn with
  | nil => exact List.forall_mem_nil _
  | append_singleton calls c ih =>
    cases c with
    | get p =>
      rw [StoreCall.after_concat_get, StoreCall.lastAdded_concat_get]
      exact ih.get p
    | add p d =>
      rw [StoreCall.after_concat_add, StoreCall.lastAdded_concat_add]
      exact ih.add p d

/-- **The cache knows all digests**, as long as it has room for their paths. -/
theorem remembers_after (size : Nat) (calls : List StoreCall)
    (hroom : (StoreCall.addedPaths calls).dedup.length ≤ size) :
    Remembers (StoreCall.after (empty size) calls) (StoreCall.lastAdded calls) := by
  induction calls using List.reverseRecOn with
  | nil => exact remembers_of_empty rfl
  | append_singleton calls c ih =>
    have hsize := size_after size calls
    cases c with
    | get p =>
      rw [StoreCall.addedPaths_concat_get] at hroom
      rw [StoreCall.after_concat_get, StoreCall.lastAdded_concat_get]
      have hpairs := (ih hroom).length_le fun _ => StoreCall.mem_addedPaths
      exact (ih hroom).get p (hsize.symm ▸ Nat.le_trans hpairs hroom)
    | add p d =>
      rw [StoreCall.addedPaths_concat_add] at hroom
      rw [StoreCall.after_concat_add, StoreCall.lastAdded_concat_add]
      have hsub : StoreCall.addedPaths calls ⊆ StoreCall.addedPaths calls ++ [p] :=
        List.subset_append_left _ _
      have ih := ih (Nat.le_trans (length_le_dedup (List.nodup_dedup _)
        (List.Subset.trans (List.dedup_subset _) hsub)) hroom)
      have hlt := ih.length_without_lt (fun _ hk => hsub (StoreCall.mem_addedPaths hk))
        (List.mem_append_right _ (List.mem_singleton_self p))
      exact ih.add p d (hsize.symm ▸ Nat.lt_of_lt_of_le hlt hroom)

/-- **The adaptive cache is lawful.** -/
theorem isLawful_empty (size : Nat) : DigestStore.IsLawful (empty size : Cache UInt64) size where
  last calls _ _ := (faithful_after size calls).last_eq
  kept calls p hroom := (remembers_after size calls hroom).get_eq p

end Cache

/-! ### Histories -/

/-- A check: a path, and the files as they are then. -/
structure Visit where
  /-- The files. -/
  tree : FileTree
  /-- The path. -/
  path : Text

/-- The text that is read in a check, if the file can be read. -/
def Visit.text? (v : Visit) : Option Text := (v.tree.read v.path).toOption

/-- The text of a path when it was last read. -/
def lastText (before : List Visit) (p : Text) : Option Text :=
  before.reverse.findSome? fun v => if v.path = p then v.text? else none

/-- The digest of the text of a path when it was last read. -/
def lastDigest (before : List Visit) (p : Text) : Option UInt64 := (lastText before p).map digest

/-- The paths that were read, one for each time. -/
def readPaths (before : List Visit) : List Text :=
  before.filterMap fun v => v.text?.map fun _ => v.path

theorem Visit.text?_of_error (v : Visit) {e : FileError} (h : v.tree.read v.path = .error e) :
    v.text? = none := by
  simp [text?, h, Except.toOption]

theorem Visit.text?_of_ok (v : Visit) {text : Text} (h : v.tree.read v.path = .ok text) :
    v.text? = some text := by
  simp [text?, h, Except.toOption]

section History

variable {before : List Visit} {v : Visit}

theorem lastDigest_concat_of_none (h : v.text? = none) :
    lastDigest (before ++ [v]) = lastDigest before := by
  funext p
  simp [lastDigest, lastText, h]

theorem lastDigest_concat_of_some {text : Text} (h : v.text? = some text) :
    lastDigest (before ++ [v]) =
      Function.update (lastDigest before) v.path (some (digest text)) := by
  funext p
  by_cases hp : p = v.path
  · subst hp
    simp [lastDigest, lastText, h]
  · simp [lastDigest, lastText, Function.update_of_ne hp, Ne.symm hp]

/-- A text that is read again changes no digest. -/
theorem lastDigest_concat_of_eq {text : Text} (h : v.text? = some text)
    (hd : lastDigest before v.path = some (digest text)) :
    lastDigest (before ++ [v]) = lastDigest before := by
  rw [lastDigest_concat_of_some h, ← hd, Function.update_eq_self]

theorem readPaths_concat_of_none (h : v.text? = none) :
    readPaths (before ++ [v]) = readPaths before := by
  simp [readPaths, h]

theorem readPaths_concat_of_some {text : Text} (h : v.text? = some text) :
    readPaths (before ++ [v]) = readPaths before ++ [v.path] := by
  simp [readPaths, h]

end History

namespace Watcher

variable {σ : Type} [DigestStore σ]

/-! ### One check -/

/-- What a check can come to: the file cannot be read; its digest is known; or its text is parsed,
with a diagnostic if and only if it is no program. -/
theorem check_cases (w : Watcher σ) (v : Visit) :
    (∃ e, v.tree.read v.path = .error e ∧ w.check v.tree v.path = ⟨w, false, some (.file e), []⟩) ∨
    (∃ text, v.tree.read v.path = .ok text ∧
      (DigestStore.get w.digests v.path).1 = some (digest text) ∧
      w.check v.tree v.path =
        ⟨⟨w.maxDepth, (DigestStore.get w.digests v.path).2⟩, false, none, []⟩) ∨
    ∃ text, v.tree.read v.path = .ok text ∧
      (DigestStore.get w.digests v.path).1 ≠ some (digest text) ∧
      let w' : Watcher σ :=
        ⟨w.maxDepth, DigestStore.add (DigestStore.get w.digests v.path).2 v.path (digest text)⟩
      ((∃ q, parse w.maxDepth text = .ok q) ∧ w.check v.tree v.path = ⟨w', true, none, []⟩ ∨
        ∃ f, parse w.maxDepth text = .error f ∧
          w.check v.tree v.path = ⟨w', true, some (.source ⟨v.path, text⟩ f),
            utf8 "error: " ++ f.message ⟨v.path, text⟩ ++ [Text.lineFeed]⟩) := by
  rw [check]
  cases hr : v.tree.read v.path with
  | error e => exact .inl ⟨e, rfl, rfl⟩
  | ok text =>
    right
    by_cases hd : (DigestStore.get w.digests v.path).1 = some (digest text)
    · exact .inl ⟨text, rfl, hd, by simp only [hd, if_true]⟩
    · refine .inr ⟨text, rfl, hd, ?_⟩
      simp only [hd, if_false, Source.parse]
      cases hp : parse w.maxDepth text with
      | ok q => exact .inl ⟨⟨q, rfl⟩, rfl⟩
      | error f => exact .inr ⟨f, rfl, by rw [← Diagnostic.print_false]; rfl⟩

/-! ### Many checks -/

/-- The watcher after checks, the first of them first. -/
def after (w : Watcher σ) (before : List Visit) : Watcher σ :=
  before.foldl (fun w v => (w.check v.tree v.path).watcher) w

theorem after_concat (w : Watcher σ) (before : List Visit) (v : Visit) :
    w.after (before ++ [v]) = ((w.after before).check v.tree v.path).watcher := by
  simp [after]

/-- The limit of the watcher stays as it is. -/
theorem maxDepth_after (w : Watcher σ) (before : List Visit) :
    (w.after before).maxDepth = w.maxDepth := by
  induction before using List.reverseRecOn with
  | nil => rfl
  | append_singleton before v ih =>
    rw [after_concat]
    rcases (w.after before).check_cases v with
      ⟨e, -, hc⟩ | ⟨text, -, -, hc⟩ | ⟨text, -, -, ⟨-, hc⟩ | ⟨f, -, hc⟩⟩
    all_goals
      rw [hc]
      exact ih

/-- A check of a file that was read calls the store: for the digest, and again to add it if it is
not known. -/
theorem digests_check (w : Watcher σ) (v : Visit) {text : Text}
    (hr : v.tree.read v.path = .ok text) :
    (DigestStore.get w.digests v.path).1 = some (digest text) ∧
        (w.check v.tree v.path).watcher.digests = (DigestStore.get w.digests v.path).2 ∨
      (w.check v.tree v.path).watcher.digests =
        DigestStore.add (DigestStore.get w.digests v.path).2 v.path (digest text) := by
  rcases w.check_cases v with
    ⟨e, he, -⟩ | ⟨text', ht, hd, hc⟩ | ⟨text', ht, -, ⟨-, hc⟩ | ⟨f, -, hc⟩⟩
  · cases hr.symm.trans he
  · cases hr.symm.trans ht
    rw [hc]
    exact .inl ⟨hd, rfl⟩
  · cases hr.symm.trans ht
    rw [hc]
    exact .inr rfl
  · cases hr.symm.trans ht
    rw [hc]
    exact .inr rfl

/-- **The digests last added are those of the texts read last**, and only paths that were read are
added. -/
theorem exists_calls {s : σ} {size : Nat} (h : DigestStore.IsLawful s size) (maxDepth : Int)
    (before : List Visit) :
    ∃ calls, (Watcher.after ⟨maxDepth, s⟩ before).digests = StoreCall.after s calls ∧
      StoreCall.lastAdded calls = lastDigest before ∧
        StoreCall.addedPaths calls ⊆ readPaths before := by
  induction before using List.reverseRecOn with
  | nil => exact ⟨[], rfl, rfl, List.Subset.refl _⟩
  | append_singleton before v ih =>
    obtain ⟨calls, hdigests, hlast, hpaths⟩ := ih
    rw [after_concat]
    cases hr : v.tree.read v.path with
    | error e =>
      have hnone := v.text?_of_error hr
      refine ⟨calls, ?_, by rw [lastDigest_concat_of_none hnone, hlast], ?_⟩
      · rcases (Watcher.after ⟨maxDepth, s⟩ before).check_cases v with
          ⟨e, -, hc⟩ | ⟨text, ht, -⟩ | ⟨text, ht, -⟩
        · rw [hc, hdigests]
        · cases hr.symm.trans ht
        · cases hr.symm.trans ht
      · rwa [readPaths_concat_of_none hnone]
    | ok text =>
      have hsome := v.text?_of_ok hr
      have hpaths' : StoreCall.addedPaths calls ⊆ readPaths (before ++ [v]) := by
        rw [readPaths_concat_of_some hsome]
        exact List.subset_append_of_subset_left _ hpaths
      rcases digests_check (Watcher.after ⟨maxDepth, s⟩ before) v hr with ⟨hd, hc⟩ | hc
      · -- the digest that is found is the last one, so nothing has to be added
        refine ⟨calls ++ [.get v.path], ?_, ?_, ?_⟩
        · rw [hc, hdigests, StoreCall.after_concat_get]
        · rw [hdigests] at hd
          rw [StoreCall.lastAdded_concat_get, lastDigest_concat_of_eq hsome, hlast]
          rw [← hlast]
          exact h.last calls v.path _ hd
        · rwa [StoreCall.addedPaths_concat_get]
      · refine ⟨calls ++ [.get v.path] ++ [.add v.path (digest text)], ?_, ?_, ?_⟩
        · rw [hc, hdigests, StoreCall.after_concat_add, StoreCall.after_concat_get]
        · rw [StoreCall.lastAdded_concat_add, StoreCall.lastAdded_concat_get,
            lastDigest_concat_of_some hsome, hlast]
        · rw [StoreCall.addedPaths_concat_add, StoreCall.addedPaths_concat_get]
          rw [readPaths_concat_of_some hsome] at hpaths' ⊢
          exact List.append_subset.2 ⟨hpaths', List.subset_append_right _ _⟩

/-- What a check of a file with the given text has to come to by the history of the watcher, whose
store has room for `size` paths. -/
structure Handles (maxDepth : Int) (size : Nat) (before : List Visit) (path text : Text)
    (r : WatchResult σ) : Prop where
  /-- The file is passed over only if the digest of its text is the one at the last time it could be
  read. -/
  repeated : r.parsed = false ∧ r.error = none → lastDigest before path = some (digest text) ∧
    r.out = []
  /-- While there is room, it is passed over whenever this is so. -/
  skipped : (readPaths before).dedup.length ≤ size → lastDigest before path = some (digest text) →
    r.parsed = false ∧ r.error = none
  /-- Any other file is parsed; if it is a program, nothing is printed. -/
  accepted : ∀ q, ¬ (r.parsed = false ∧ r.error = none) → parse maxDepth text = .ok q →
    r.parsed = true ∧ r.error = none ∧ r.out = []
  /-- If it is no program, one diagnostic is printed. -/
  rejected : ∀ f, ¬ (r.parsed = false ∧ r.error = none) → parse maxDepth text = .error f →
    r.parsed = true ∧ r.error = some (.source ⟨path, text⟩ f) ∧
      r.out = utf8 "error: " ++ f.message ⟨path, text⟩ ++ [Text.lineFeed]

/-- **A watcher on a lawful store skips only repeats.** -/
theorem check_of_isLawful {s : σ} {size : Nat} (h : DigestStore.IsLawful s size) (maxDepth : Int)
    (before : List Visit) (v : Visit) {text : Text} (hr : v.tree.read v.path = .ok text) :
    Handles maxDepth size before v.path text
      ((Watcher.after ⟨maxDepth, s⟩ before).check v.tree v.path) := by
  obtain ⟨calls, hdigests, hlast, hpaths⟩ := exists_calls h maxDepth before
  have hdepth : (Watcher.after ⟨maxDepth, s⟩ before).maxDepth = maxDepth := maxDepth_after _ before
  rcases (Watcher.after ⟨maxDepth, s⟩ before).check_cases v with
    ⟨e, he, -⟩ | ⟨text', ht, hd, hc⟩ | ⟨text', ht, hd, hcases⟩
  · cases hr.symm.trans he
  · cases hr.symm.trans ht
    rw [hdigests] at hd
    rw [hc]
    exact ⟨fun _ => ⟨hlast ▸ h.last calls v.path _ hd, rfl⟩, fun _ _ => ⟨rfl, rfl⟩,
      fun _ hnot => absurd ⟨rfl, rfl⟩ hnot, fun _ hnot => absurd ⟨rfl, rfl⟩ hnot⟩
  · cases hr.symm.trans ht
    -- with room the digest would be known
    have hunknown (hroom : (readPaths before).dedup.length ≤ size) :
        lastDigest before v.path ≠ some (digest text) := by
      have hadded : (StoreCall.addedPaths calls).dedup.length ≤ size :=
        Nat.le_trans (Cache.length_le_dedup (List.nodup_dedup _)
          (List.Subset.trans (List.dedup_subset _) hpaths)) hroom
      rwa [hdigests, h.kept calls v.path hadded, hlast] at hd
    rw [hdepth] at hcases
    rcases hcases with ⟨⟨q, hq⟩, hc⟩ | ⟨f, hf, hc⟩
    · rw [hc]
      refine ⟨fun h => (Bool.noConfusion h.1), fun hroom hlast => absurd hlast (hunknown hroom),
        fun _ _ _ => ⟨rfl, rfl, rfl⟩, ?_⟩
      intro f _ hf
      cases hq.symm.trans hf
    · rw [hc]
      refine ⟨fun h => (Bool.noConfusion h.1),
        fun hroom hlast => absurd hlast (hunknown hroom), ?_, ?_⟩
      · intro q _ hq
        cases hf.symm.trans hq
      · intro f' _ hf'
        cases hf.symm.trans hf'
        exact ⟨rfl, rfl, rfl⟩

theorem new_of_pos {maxDepth cacheSize : Int} (h : 1 ≤ cacheSize) :
    Watcher.new maxDepth cacheSize = .ok ⟨maxDepth, Cache.empty cacheSize.toNat⟩ := by
  rw [Watcher.new, if_neg (by omega)]

/-- **A watcher skips only repeats**: a check passes over a file only if the digest of its text is
the one at the last time that the path could be read, and always then while no more paths were read
than there is room for. Any other file that can be read is parsed, with a diagnostic if and only if
it is no program. If the file cannot be read, the watcher stays as it is. -/
theorem check_skips_repeats (maxDepth cacheSize : Int) (hsize : 1 ≤ cacheSize) :
    ∃ w, Watcher.new maxDepth cacheSize = .ok w ∧ ∀ (before : List Visit) (v : Visit),
      let r := (w.after before).check v.tree v.path
      (∀ e, v.tree.read v.path = .error e → r = ⟨w.after before, false, some (.file e), []⟩) ∧
      ∀ text, v.tree.read v.path = .ok text →
        Handles maxDepth cacheSize.toNat before v.path text r := by
  refine ⟨_, new_of_pos hsize, fun before v => ⟨?_, ?_⟩⟩
  · intro e he
    rcases check_cases (σ := Cache UInt64) _ v with
      ⟨e', he', hc⟩ | ⟨text, ht, -⟩ | ⟨text, ht, -⟩
    · cases he.symm.trans he'
      exact hc
    · cases he.symm.trans ht
    · cases he.symm.trans ht
  · intro text hr
    exact check_of_isLawful (Cache.isLawful_empty _) maxDepth before v hr

/-- The files `a`, which is a program, and `b` with the given text. -/
def treeWith (b : Text) : FileTree := ⟨[(utf8 "a", .file (utf8 "f(1);")), (utf8 "b", .file b)], []⟩

/-- Both files are checked, and `b` changes. With room for both, `a` is skipped when it is checked
again, and `b`, which is no program any more, is reported. -/
theorem check_skips_repeats_rewritten :
    (1 : Int) ≤ 2 ∧ ∃ w, Watcher.new 0 2 = .ok w ∧
      let before : List Visit := [⟨treeWith [], utf8 "a"⟩, ⟨treeWith [], utf8 "b"⟩]
      let again := (w.after before).check (treeWith (utf8 "f(")) (utf8 "a")
      let broken := (w.after before).check (treeWith (utf8 "f(")) (utf8 "b")
      (again.parsed = false ∧ again.error = none) ∧ broken.parsed = true ∧
        broken.out = utf8 "error: b:1:3: unexpected end of input, expected expression\n\tf(\n\t  ^\n" := by
  refine ⟨by decide, (check_skips_repeats 0 2 (by decide)).imp fun w hw => ⟨hw.1, ?_⟩⟩
  have hbefore := hw.2 [⟨treeWith [], utf8 "a"⟩, ⟨treeWith [], utf8 "b"⟩]
  have hagain := (hbefore ⟨treeWith (utf8 "f("), utf8 "a"⟩).2 (utf8 "f(1);") rfl
  have hbroken := (hbefore ⟨treeWith (utf8 "f("), utf8 "b"⟩).2 (utf8 "f(") rfl
  have hparse : parse 0 (utf8 "f(") = .error ⟨2, .unexpectedEnd .expression⟩ :=
    eq_error_of_map (by decide +kernel)
  have hchanged : (lastDigest [⟨treeWith [], utf8 "a"⟩, ⟨treeWith [], utf8 "b"⟩] (utf8 "b")) ≠
      some (digest (utf8 "f(")) := by
    decide +kernel
  obtain ⟨hparsed, -, hout⟩ :=
    hbroken.rejected _ (fun hskip => hchanged (hbroken.repeated hskip).1) hparse
  refine ⟨hagain.skipped (by decide) (congrArg (Option.map digest) rfl), hparsed, hout.trans ?_⟩
  decide +kernel

end Watcher

end Scriptlet
