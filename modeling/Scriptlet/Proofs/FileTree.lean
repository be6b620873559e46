import Scriptlet.Files.Tree
import Scriptlet.Proofs.Lookup
import Scriptlet.Proofs.Paths

/-!
# File trees

What a path leads to, step by step (`Leads`), and what writing a file changes: the file at the path
has the new content, and at all other paths there is what was there (`Replaced`). So reading gives
what was last written (`read_put`).
-/

namespace Scriptlet

namespace Entry

/-! ### What is at a path -/

/-- What there is to see of an entry: the content of a file, nothing of a directory. -/
def content? : Entry → Option Text
  | .file c => some c
  | .directory _ => none

theorem get?_nil (e : Entry) : e.get? [] = some e := by
  cases e <;> rfl

theorem get?_directory_cons (es : List (Text × Entry)) (n : Text) (ns : List Text) :
    (directory es).get? (n :: ns) = (es.lookup n).bind fun e => e.get? ns := by
  rw [get?]
  cases es.lookup n <;> rfl

theorem get?_append (e : Entry) (ns ms : List Text) :
    e.get? (ns ++ ms) = (e.get? ns).bind fun d => d.get? ms := by
  induction ns generalizing e with
  | nil => rw [List.nil_append, get?_nil, Option.bind_some]
  | cons n ns ih =>
    cases e with
    | file c => rfl
    | directory es =>
      rw [List.cons_append, get?_directory_cons, get?_directory_cons]
      cases es.lookup n with
      | none => rfl
      | some d => exact ih d

/-- A name that is set stands for the new entry, whatever the order of the names was. -/
theorem lookup_set (name n : Text) (e : Entry) (es : List (Text × Entry)) :
    (set name (some e) es).lookup n = if n = name then some e else es.lookup n := by
  induction es with
  | nil => exact lookup_cons_eq n name e []
  | cons d es ih =>
    obtain ⟨m, d⟩ := d
    by_cases hm : m = name
    · subst hm
      rw [set, if_pos rfl]
      show ((m, e) :: es).lookup n = _
      rw [lookup_cons_eq, lookup_cons_eq]
      split_ifs <;> rfl
    · rw [set, if_neg hm]
      by_cases hle : Text.le name m
      · rw [if_pos hle]
        exact lookup_cons_eq n name e ((m, d) :: es)
      · rw [if_neg hle, lookup_cons_eq, ih, lookup_cons_eq]
        by_cases hn : n = m
        · rw [if_pos hn, if_neg fun h => hm (hn.symm.trans h), if_pos hn]
        · rw [if_neg hn, if_neg hn]

/-- A directory on the way to a file that is written. -/
theorem alter_cons {f : Option Entry → Option Entry} {d : Text} {ns : List Text} (hns : ns ≠ [])
    {es inner : List (Text × Entry)} (h : es.lookup d = some (.directory inner)) :
    alter f (d :: ns) es = set d (some (.directory (alter f ns inner))) es := by
  cases ns with
  | nil => exact absurd rfl hns
  | cons n ns =>
    rw [alter, h]
    exact List.cons_ne_nil n ns

section

variable {f : Option Entry → Option Entry} {ds : List Text} {n : Text}
  {es inner : List (Text × Entry)}

/-- Down to a directory, each name leads to a directory. -/
theorem exists_lookup_of_get? {d : Text}
    (h : (directory es).get? (d :: ds) = some (.directory inner)) :
    ∃ es', es.lookup d = some (.directory es') ∧
      (directory es').get? ds = some (.directory inner) := by
  rw [get?_directory_cons] at h
  obtain ⟨e, he, h⟩ := Option.bind_eq_some_iff.1 h
  cases e with
  | directory es' => exact ⟨es', he, h⟩
  | file c => cases ds <;> cases h

theorem get?_alter_self {content : Text} (h : (directory es).get? ds = some (.directory inner)) :
    (directory (alter (fun _ => some (.file content)) (ds ++ [n]) es)).get? (ds ++ [n]) =
      some (.file content) := by
  induction ds generalizing es with
  | nil =>
    show (directory (set n (some (.file content)) es)).get? [n] = _
    rw [get?_directory_cons, lookup_set, if_pos rfl, Option.bind_some, get?_nil]
  | cons d ds ih =>
    obtain ⟨es', hd, hds⟩ := exists_lookup_of_get? h
    rw [List.cons_append, alter_cons (by simp) hd, get?_directory_cons, lookup_set, if_pos rfl,
      Option.bind_some]
    exact ih hds

/-- **A file that is written changes nothing else**: at any other path there is what was there, a
file with its content or a directory. -/
theorem content?_alter_of_ne {content : Text} (h : (directory es).get? ds = some (.directory inner))
    (hfile : ∀ inner', (directory es).get? (ds ++ [n]) ≠ some (.directory inner')) {ns : List Text}
    (hns : ns ≠ ds ++ [n]) :
    ((directory (alter (fun _ => some (.file content)) (ds ++ [n]) es)).get? ns).map content? =
      ((directory es).get? ns).map content? := by
  induction ds generalizing es ns with
  | nil =>
    show ((directory (set n (some (.file content)) es)).get? ns).map content? = _
    cases ns with
    | nil => rfl
    | cons m ms =>
      rw [get?_directory_cons, get?_directory_cons, lookup_set]
      split_ifs with hm
      · -- below the file there is nothing, before and after
        subst hm
        obtain ⟨l, ls, rfl⟩ :=
          List.exists_cons_of_ne_nil (l := ms) fun hms => hns (by rw [hms]; rfl)
        rw [List.nil_append, get?_directory_cons] at hfile
        cases hlookup : es.lookup m with
        | none => rfl
        | some e =>
          rw [hlookup] at hfile
          cases e with
          | file c => rfl
          | directory es' => exact absurd rfl (hfile es')
      · rfl
  | cons d ds ih =>
    obtain ⟨es', hd, hds⟩ := exists_lookup_of_get? h
    rw [List.cons_append, alter_cons (by simp) hd]
    cases ns with
    | nil => rfl
    | cons m ms =>
      rw [get?_directory_cons, get?_directory_cons, lookup_set]
      split_ifs with hm
      · subst hm
        rw [hd, Option.bind_some, Option.bind_some]
        apply ih hds
        · intro inner' hinner
          apply hfile inner'
          rw [List.cons_append, get?_directory_cons, hd]
          exact hinner
        · intro hms
          exact hns (by rw [hms]; rfl)
      · rfl

end

end Entry

namespace FileTree

/-- What there is to see at the given names: the content of a file, a directory, or nothing at
all. -/
def seen? (t : FileTree) (ns : List Text) : Option (Option Text) := (t.get? ns).map Entry.content?

/-- The file at the given names has a new content, or is new; all else is as it was. -/
structure Replaced (t t' : FileTree) (names : List Text) (content : Text) : Prop where
  file : t'.get? names = some (.file content)
  others : ∀ ns, ns ≠ names → t'.seen? ns = t.seen? ns
  home : t'.home = t.home

theorem replaced_put {t : FileTree} {here : List Text} {n : Text} {inner : List (Text × Entry)}
    (hhere : t.get? here = some (.directory inner))
    (hfile : ∀ inner', t.get? (here ++ [n]) ≠ some (.directory inner')) (content : Text) :
    t.Replaced (t.put (here ++ [n]) content) (here ++ [n]) content where
  file := Entry.get?_alter_self hhere
  others _ hns := Entry.content?_alter_of_ne hhere hfile hns
  home := rfl

/-- The last name of a path, the directory that the names before it lead to, and what it takes to
write there. -/
structure IsPlace (t : FileTree) (p : Text) (here : List Text) (n : Text) : Prop where
  fault : pathFault? p = none
  path : ∃ ns, Path.names p = ns ++ [n] ∧ t.follow (t.origin p) ns = .ok here
  directory : ∃ inner, t.get? here = some (.directory inner)
  proper : Path.IsProper n
  length_le : n.length ≤ nameLimit
  file : ∀ inner, t.get? (here ++ [n]) ≠ some (.directory inner)

/-- The names of a path without the empty ones at its end. -/
def trimmed (p : Text) : List Text := ((Path.names p).reverse.dropWhile List.isEmpty).reverse

theorem place_eq_ok {t : FileTree} {p : Text} {here : List Text} {n : Text} {slashed : Bool}
    (h : t.place p = .ok ⟨here, some n, slashed⟩) :
    pathFault? p = none ∧ slashed = Text.endsWith p [Path.slash] ∧
      t.follow (t.origin p) (trimmed p).dropLast = .ok here ∧ (trimmed p).getLast? = some n ∧
      (∃ inner, t.get? here = some (.directory inner)) ∧ n ≠ utf8 "." ∧ n ≠ utf8 ".." := by
  rw [place] at h
  split at h
  · cases h
  · rename_i hfault
    dsimp only at h
    rw [← trimmed] at h
    cases hfollow : t.follow (t.origin p) (trimmed p).dropLast with
    | error o =>
      rw [hfollow] at h
      cases h
    | ok here' =>
      simp only [hfollow, bind, Except.bind] at h
      split at h
      · cases h
      · cases h
      · rename_i inner hhere
        split at h
        · cases h
        · rename_i m hlast
          split_ifs at h with hdots
          · cases h
          · cases h
            rw [Bool.or_eq_true, decide_eq_true_eq, decide_eq_true_eq, not_or] at hdots
            exact ⟨hfault, rfl, rfl, hlast, ⟨inner, hhere⟩, hdots.1, hdots.2⟩

theorem pathFault?_eq_none_iff {p : Text} :
    pathFault? p = none ↔ 0 ∉ p ∧ p ≠ [] ∧ p.length ≤ pathLimit := by
  rw [pathFault?]
  split_ifs with hzero hempty hlong <;> simp_all

/-- Where no slash ends a path, its last name is not empty, and all names count. -/
theorem exists_names_of_not_slashed {p : Text} (hp : p ≠ [])
    (h : Text.endsWith p [Path.slash] = false) :
    ∃ ns n, Path.names p = ns ++ [n] ∧ n ≠ [] ∧ trimmed p = ns ++ [n] := by
  obtain ⟨ns, n, hnames⟩ :=
    (List.eq_nil_or_concat (Path.names p)).resolve_left (Path.names_ne_nil p)
  rw [List.concat_eq_append] at hnames
  have hn : n ≠ [] := by
    rintro rfl
    rw [Path.endsWith_slash_of_names hp hnames] at h
    cases h
  refine ⟨ns, n, hnames, hn, ?_⟩
  rw [trimmed, hnames, List.reverse_append, List.reverse_singleton, List.singleton_append,
    List.dropWhile_cons_of_neg (by simpa using hn), List.reverse_cons, List.reverse_reverse]

theorem exists_isPlace {t : FileTree} {p : Text} {names : List Text} (h : t.target p = .ok names) :
    ∃ here n, names = here ++ [n] ∧ t.IsPlace p here n := by
  cases hq : t.place p with
  | error o =>
    simp only [target, hq, bind, Except.bind] at h
    cases h
  | ok q =>
    obtain ⟨here, name, slashed⟩ := q
    simp only [target, hq, bind, Except.bind] at h
    cases name with
    | none => cases h
    | some n =>
      obtain ⟨hfault, hslash, hfollow, hlast, hdirectory, hdot, hdots⟩ := place_eq_ok hq
      simp only at h
      split_ifs at h with hslashed hlength
      have hfile : ∀ inner, t.get? (here ++ [n]) ≠ some (.directory inner) := by
        intro inner hentry
        rw [hentry] at h
        cases h
      have hnames : names = here ++ [n] := by
        split at h
        · rename_i ns hns
          obtain rfl := Except.ok.inj h
          split at hns
          · cases hns
          · exact (Except.ok.inj hns).symm
        · cases h
      obtain ⟨ns, m, hsplit, hm, htrimmed⟩ :=
        exists_names_of_not_slashed (pathFault?_eq_none_iff.1 hfault).2.1
          (by rw [← hslash]; simpa using hslashed)
      rw [htrimmed, List.dropLast_concat] at hfollow
      rw [htrimmed, List.getLast?_concat] at hlast
      obtain rfl := Option.some.inj hlast
      exact ⟨here, m, hnames, hfault, ⟨ns, hsplit, hfollow⟩, hdirectory, ⟨hm, hdot, hdots⟩,
        by omega, hfile⟩

/-! ### Following a path -/

section

variable {t t' : FileTree} {here there : List Text} {n : Text}

theorem seen?_eq_some_none : t.seen? here = some none ↔
    ∃ es, t.get? here = some (.directory es) := by
  rw [seen?]
  cases t.get? here with
  | none => simp
  | some e => cases e <;> simp [Entry.content?]

theorem get?_concat {es : List (Text × Entry)} (h : t.get? here = some (.directory es)) (n : Text) :
    t.get? (here ++ [n]) = es.lookup n := by
  rw [get?] at h ⊢
  rw [Entry.get?_append, h, Option.bind_some, Entry.get?_directory_cons]
  cases es.lookup n with
  | none => rfl
  | some e => exact Entry.get?_nil e

/-- `Leads t here ns there`: from the directory `here` the names lead to `there`. -/
inductive Leads (t : FileTree) : List Text → List Text → List Text → Prop where
  /-- No name is left. -/
  | done (here : List Text) : Leads t here [] here
  /-- An empty name, or a dot. -/
  | stay {here ns there : List Text} {n : Text} : t.seen? here = some none → n = [] ∨ n = utf8 "." →
      Leads t here ns there → Leads t here (n :: ns) there
  /-- Two dots. -/
  | up {here ns there : List Text} : t.seen? here = some none → Leads t here.dropLast ns there →
      Leads t here (utf8 ".." :: ns) there
  /-- The name of something in the directory. -/
  | down {here ns there : List Text} {n : Text} : t.seen? here = some none → Path.IsProper n →
      n.length ≤ nameLimit → (t.seen? (here ++ [n])).isSome = true →
        Leads t (here ++ [n]) ns there →
      Leads t here (n :: ns) there

theorem follow_eq_ok_iff {ns : List Text} : t.follow here ns = .ok there ↔
    t.Leads here ns there := by
  constructor
  · intro h
    induction ns generalizing here with
    | nil =>
      obtain rfl := Except.ok.inj h
      exact .done here
    | cons n ns ih =>
      rw [follow] at h
      split at h
      · cases h
      · cases h
      · rename_i es hhere
        have hdirectory := seen?_eq_some_none.2 ⟨es, hhere⟩
        split_ifs at h with hstay hup hlength hlookup
        · exact .stay hdirectory (by simpa using hstay) (ih h)
        · rw [hup]
          exact .up hdirectory (ih h)
        · rw [Bool.or_eq_true, decide_eq_true_eq, decide_eq_true_eq, not_or] at hstay
          refine .down hdirectory ⟨hstay.1, hstay.2, hup⟩ (by omega) ?_ (ih h)
          rw [seen?, get?_concat hhere, Option.isSome_map]
          exact hlookup
  · intro h
    induction h with
    | done here => rfl
    | stay hhere hn _ ih =>
      obtain ⟨es, hes⟩ := seen?_eq_some_none.1 hhere
      rw [follow, hes, ← ih]
      exact if_pos (by simpa using hn)
    | up hhere _ ih =>
      obtain ⟨es, hes⟩ := seen?_eq_some_none.1 hhere
      rw [follow, hes, ← ih]
      rfl
    | @down here ns there n hhere hn hlength hsome _ ih =>
      obtain ⟨es, hes⟩ := seen?_eq_some_none.1 hhere
      rw [seen?, get?_concat hes, Option.isSome_map] at hsome
      rw [follow, hes, ← ih]
      simp only
      rw [if_neg (by simp [hn.ne_nil, hn.ne_dot]), if_neg hn.ne_dots, if_neg (by omega),
        if_pos hsome]

theorem Leads.append {ns ms : List Text} {mid : List Text} (h : t.Leads here ns mid)
    (h' : t.Leads mid ms there) : t.Leads here (ns ++ ms) there := by
  induction h with
  | done => exact h'
  | stay hhere hn _ ih => exact .stay hhere hn (ih h')
  | up hhere _ ih => exact .up hhere (ih h')
  | down hhere hn hlength hsome _ ih => exact .down hhere hn hlength hsome (ih h')

theorem Leads.of_append {ns ms : List Text} (h : t.Leads here (ns ++ ms) there) :
    ∃ mid, t.Leads here ns mid ∧ t.Leads mid ms there := by
  induction ns generalizing here with
  | nil => exact ⟨here, .done here, h⟩
  | cons n ns ih =>
    cases h with
    | stay hhere hn h =>
      obtain ⟨mid, hmid, hthere⟩ := ih h
      exact ⟨mid, .stay hhere hn hmid, hthere⟩
    | up hhere h =>
      obtain ⟨mid, hmid, hthere⟩ := ih h
      exact ⟨mid, .up hhere hmid, hthere⟩
    | down hhere hn hlength hsome h =>
      obtain ⟨mid, hmid, hthere⟩ := ih h
      exact ⟨mid, .down hhere hn hlength hsome hmid, hthere⟩

theorem Leads.eq_of_nil (h : t.Leads here [] there) : there = here := by
  cases h
  rfl

/-- A proper name leads down. -/
theorem Leads.eq_of_proper (hn : Path.IsProper n) (h : t.Leads here [n] there) :
    there = here ++ [n] := by
  cases h with
  | stay _ hstay _ => exact absurd hstay (by simp [hn.ne_nil, hn.ne_dot])
  | up => exact absurd rfl hn.ne_dots
  | down _ _ _ _ h => exact h.eq_of_nil

/-- One more name on the way, and on the stack of the names that are kept. -/
theorem Leads.step {rooted : Bool} {mid : List Text} {kept : List Text}
    (hroot : rooted = true → here = []) (hkept : ∀ k ∈ kept, k ≠ [] ∧ k ≠ utf8 ".")
    (h : t.Leads here kept.reverse mid) (hn : t.Leads mid [n] there) :
    t.Leads here (Path.step rooted kept n).reverse there := by
  have hpush : t.Leads here (n :: kept).reverse there := by
    rw [List.reverse_cons]
    exact h.append hn
  cases hn with
  | stay hmid hstay hn =>
    obtain rfl := hn.eq_of_nil
    unfold Path.step
    rw [if_pos (by simpa using hstay)]
    exact h
  | down hmid hproper hlength hsome hn =>
    rw [Path.step_of_isProper hproper]
    exact hpush
  | up hmid hn =>
    obtain rfl := hn.eq_of_nil
    unfold Path.step
    rw [if_neg (by decide), if_pos rfl]
    cases kept with
    | nil =>
      obtain rfl := h.eq_of_nil
      cases rooted with
      | false => exact hpush
      | true =>
        obtain rfl := hroot rfl
        exact .done []
    | cons last before =>
      by_cases hlast : last = utf8 ".."
      · simp only [if_pos hlast]
        exact hpush
      · -- the name that is taken back led down to where `..` goes up again
        rw [List.reverse_cons] at h
        obtain ⟨mid', hbefore, hdown⟩ := h.of_append
        have hproper : Path.IsProper last :=
          ⟨(hkept last List.mem_cons_self).1, (hkept last List.mem_cons_self).2, hlast⟩
        obtain rfl := hdown.eq_of_proper hproper
        simp only [if_neg hlast, List.dropLast_concat]
        exact hbefore

/-- **The names that are kept of a path lead where the path leads.** -/
theorem Leads.kept {p : Text} (h : t.Leads (t.origin p) (Path.names p) there) :
    t.Leads (t.origin p) (Path.kept p) there := by
  have hroot : Path.isAbsolute p = true → t.origin p = [] := fun habsolute => if_pos habsolute
  rw [Path.kept]
  generalize Path.names p = ns at h ⊢
  induction ns using List.reverseRecOn generalizing there with
  | nil => exact h
  | append_singleton ns n ih =>
    obtain ⟨mid, hmid, hthere⟩ := h.of_append
    rw [List.foldl_append]
    exact Leads.step hroot (fun k hk => (Path.mem_foldl_step hk).2) (ih hmid) hthere

theorem seen?_nil : t.seen? [] = some none := rfl

/-- Names of what is in a directory lead to it. -/
theorem leads_of_entry {ns : List Text} {e : Entry} (h : t.get? (here ++ ns) = some e)
    (hns : ∀ n ∈ ns, Path.IsProper n ∧ n.length ≤ nameLimit) : t.Leads here ns (here ++ ns) := by
  induction ns generalizing here with
  | nil =>
    rw [List.append_nil]
    exact .done here
  | cons n ns ih =>
    rw [List.forall_mem_cons] at hns
    have hsplit := h
    rw [List.append_cons] at h ⊢
    rw [get?, Entry.get?_append] at hsplit
    obtain ⟨d, hd, hn⟩ := Option.bind_eq_some_iff.1 hsplit
    have hdirectory : t.seen? here = some none := by
      cases d with
      | file c => cases hn
      | directory es => exact seen?_eq_some_none.2 ⟨es, hd⟩
    have hsome : (t.seen? (here ++ [n])).isSome = true := by
      rw [get?, Entry.get?_append] at h
      obtain ⟨d', hd', -⟩ := Option.bind_eq_some_iff.1 h
      rw [seen?, get?, hd']
      rfl
    exact .down hdirectory hns.1.1 hns.1.2 hsome (ih h hns.2)

/-- A path leads where it led after a file was written. -/
theorem Replaced.leads {names : List Text} {content : Text} (h : t.Replaced t' names content)
    (hfile : t.seen? names ≠ some none) {ns : List Text} (hl : t.Leads here ns there) :
    t'.Leads here ns there := by
  have hdirectory {ms : List Text} (hms : t.seen? ms = some none) : t'.seen? ms = some none := by
    rw [h.others ms (by rintro rfl; exact hfile hms), hms]
  have hsome {ms : List Text} (hms : (t.seen? ms).isSome = true) : (t'.seen? ms).isSome = true := by
    by_cases hne : ms = names
    · rw [hne, seen?, h.file]
      rfl
    · rw [h.others ms hne, hms]
  induction hl with
  | done here => exact .done here
  | stay hhere hn _ ih => exact .stay (hdirectory hhere) hn ih
  | up hhere _ ih => exact .up (hdirectory hhere) ih
  | down hhere hn hlength hthere _ ih => exact .down (hdirectory hhere) hn hlength (hsome hthere) ih

theorem resolve_eq_ok_iff {p : Text} :
    t.resolve p = .ok there ↔ pathFault? p = none ∧ t.Leads (t.origin p) (Path.names p) there := by
  rw [resolve, ← follow_eq_ok_iff]
  cases pathFault? p <;> simp

theorem find_eq_ok_iff {p : Text} {e : Entry} :
    t.find p = .ok e ↔ ∃ there, t.resolve p = .ok there ∧ t.get? there = some e := by
  rw [find]
  cases t.resolve p with
  | error o => simp [bind, Except.bind]
  | ok there => cases hentry : t.get? there <;> simp [bind, Except.bind, hentry]

theorem read_eq_ok_iff {p content : Text} : t.read p = .ok content ↔
    t.find p = .ok (.file content) := by
  rw [read]
  split <;> simp_all

end

section

variable {t : FileTree} {p : Text} {here : List Text} {n : Text}

theorem IsPlace.replaced (h : t.IsPlace p here n) (content : Text) :
    t.Replaced (t.put (here ++ [n]) content) (here ++ [n]) content := by
  obtain ⟨inner, hinner⟩ := h.directory
  exact replaced_put hinner h.file content

/-- **What is written can be read**, at the path it was written to. -/
theorem IsPlace.read_put (h : t.IsPlace p here n) (content : Text) :
    (t.put (here ++ [n]) content).read p = .ok content := by
  have hreplaced := h.replaced content
  obtain ⟨ns, hnames, hfollow⟩ := h.path
  have hfile : t.seen? (here ++ [n]) ≠ some none := by
    intro hseen
    obtain ⟨inner, hinner⟩ := seen?_eq_some_none.1 hseen
    exact h.file inner hinner
  have hhere : (t.put (here ++ [n]) content).seen? here = some none := by
    rw [hreplaced.others here (by simp)]
    exact seen?_eq_some_none.2 h.directory
  have hlast : ((t.put (here ++ [n]) content).seen? (here ++ [n])).isSome = true := by
    rw [seen?, hreplaced.file]
    rfl
  rw [read_eq_ok_iff, find_eq_ok_iff]
  refine ⟨here ++ [n], ?_, hreplaced.file⟩
  rw [resolve_eq_ok_iff, hnames]
  refine ⟨h.fault, ?_⟩
  exact (hreplaced.leads hfile (follow_eq_ok_iff.1 hfollow)).append
    (.down hhere h.proper h.length_le hlast (.done _))

end

end FileTree

end Scriptlet
