import Scriptlet.Proofs.FileTree
import Scriptlet.Watch

/-!
# What a watch covers

The files that a watch checks first come from a walk over the entries of a directory; the events it
takes later are told by their paths alone. Both are about the same files (`sourceFiles_covered`).
The walk hands the path down and adds one name at a time, so it comes to the path of the directory
with all names behind it (`Path.foldl_join`), and two ways down never give one path
(`Path.foldl_join_injective`). Listing these files opens every directory, so it fails where the path
of one is too long (`FileTree.listSources_eq_ok_iff`).
-/

namespace Scriptlet

/-! ### File names -/

/-- A name that something in a directory can have. -/
structure Path.IsFileName (n : Text) : Prop where
  proper : Path.IsProper n
  slash : Path.slash ∉ n
  zero : 0 ∉ n
  length_le : n.length ≤ FileTree.nameLimit

namespace Path

instance (n : Text) : Decidable (IsFileName n) :=
  decidable_of_iff (IsProper n ∧ slash ∉ n ∧ 0 ∉ n ∧ n.length ≤ FileTree.nameLimit)
    ⟨fun ⟨hproper, hslash, hzero, hlength⟩ => ⟨hproper, hslash, hzero, hlength⟩,
      fun ⟨hproper, hslash, hzero, hlength⟩ => ⟨hproper, hslash, hzero, hlength⟩⟩

variable {p : Text} {ns : List Text}

theorem isClean_names (p : Text) (h : ∀ n ∈ ns, IsFileName n) :
    IsClean (isAbsolute p) (kept p ++ ns) :=
  (isClean_kept p).append fun n hn => ⟨(h n hn).proper, (h n hn).slash⟩

theorem join_fileNames (hp : p ≠ []) (hne : ns ≠ []) (h : ∀ n ∈ ns, IsFileName n) :
    join p (Text.join [slash] ns) = written (isAbsolute p) (kept p ++ ns) :=
  join_join hp hne fun n hn => ⟨(h n hn).proper, (h n hn).slash⟩

theorem join_name (hp : p ≠ []) {n : Text} (hn : IsFileName n) :
    join p n = written (isAbsolute p) (kept p ++ [n]) := by
  have h := join_fileNames hp (List.cons_ne_nil n []) (List.forall_mem_singleton.2 hn)
  rwa [Text.join, List.intercalate_singleton] at h

/-- Names added one at a time come behind the names kept of the path. -/
theorem foldl_join (hp : p ≠ []) (hne : ns ≠ []) (h : ∀ n ∈ ns, IsFileName n) :
    ns.foldl join p = written (isAbsolute p) (kept p ++ ns) := by
  induction ns using List.reverseRecOn with
  | nil => exact absurd rfl hne
  | append_singleton ns n ih =>
    have hns : ∀ m ∈ ns, IsFileName m := fun m hm => h m (List.mem_append_left _ hm)
    have hn : IsFileName n := h n List.mem_concat_self
    rw [List.foldl_append, List.foldl_cons, List.foldl_nil]
    by_cases hnil : ns = []
    · rw [hnil]
      exact join_name hp hn
    · have hclean := isClean_names p hns
      have hkept : kept p ++ ns ≠ [] := List.append_ne_nil_of_right_ne_nil _ hnil
      rw [ih hnil hns, join_name (written_ne_nil hclean hkept) hn, isAbsolute_written hclean,
        kept_written hclean hkept, List.append_assoc]

/-- Different ways down give different paths. -/
theorem foldl_join_injective (hp : p ≠ []) {ms : List Text} (hn : ns ≠ []) (hm : ms ≠ [])
    (hns : ∀ n ∈ ns, IsFileName n) (hms : ∀ n ∈ ms, IsFileName n)
    (h : ns.foldl join p = ms.foldl join p) : ns = ms := by
  rw [foldl_join hp hn hns, foldl_join hp hm hms] at h
  have hkept := written_injective (isClean_names p hns) (isClean_names p hms)
    (List.append_ne_nil_of_right_ne_nil _ hn) (List.append_ne_nil_of_right_ne_nil _ hm) h
  exact List.append_cancel_left hkept

end Path

namespace Entry

/-- In every directory the names are file names, and no two of them are the same. -/
inductive WellFormed : Entry → Prop where
  /-- A file. -/
  | file (content : Text) : WellFormed (.file content)
  /-- A directory. -/
  | directory {es : List (Text × Entry)} :
      (es.map Prod.fst).Nodup → (∀ d ∈ es, Path.IsFileName d.1) → (∀ d ∈ es, WellFormed d.2) →
      WellFormed (.directory es)

theorem sourceFilesIn_eq (p : Text) (es : List (Text × Entry)) :
    sourceFilesIn p es = es.flatMap fun d => d.2.sourceFiles (Path.join p d.1) := by
  induction es with
  | nil => rfl
  | cons d es ih => rw [sourceFilesIn, ih, List.flatMap_cons]

/-- What stands below an entry is well-formed, and the names on the way to it are file names. -/
theorem WellFormed.get? {e d : Entry} (h : e.WellFormed) {ns : List Text}
    (hd : e.get? ns = some d) : (∀ n ∈ ns, Path.IsFileName n) ∧ d.WellFormed := by
  induction h generalizing ns with
  | file content =>
    cases ns with
    | nil =>
      obtain rfl := Option.some.inj hd
      exact ⟨by simp, .file content⟩
    | cons n ns => cases hd
  | @directory es hnodup hnames hinner ih =>
    cases ns with
    | nil =>
      obtain rfl := Option.some.inj hd
      exact ⟨by simp, .directory hnodup hnames hinner⟩
    | cons n ns =>
      rw [get?_directory_cons] at hd
      obtain ⟨e, he, hd⟩ := Option.bind_eq_some_iff.1 hd
      have hmem := (lookup_eq_some_iff hnodup).1 he
      obtain ⟨hns, hwell⟩ := ih _ hmem hd
      exact ⟨List.forall_mem_cons.2 ⟨hnames _ hmem, hns⟩, hwell⟩

/-- **The walk finds the source files**: those below the entry, each with the path of the entry and
the names behind it. -/
theorem WellFormed.mem_sourceFiles {e : Entry} (h : e.WellFormed) {p q : Text} :
    q ∈ e.sourceFiles p ↔
      isSourcePath q = true ∧ ∃ ns c, e.get? ns = some (.file c) ∧ q = ns.foldl Path.join p := by
  induction h generalizing p with
  | file content =>
    rw [sourceFiles]
    constructor
    · intro hq
      split_ifs at hq with hp
      · obtain rfl := List.mem_singleton.1 hq
        exact ⟨hp, [], content, rfl, rfl⟩
      · cases hq
    · rintro ⟨hq, ns, c, hns, rfl⟩
      cases ns with
      | nil =>
        rw [List.foldl_nil] at hq ⊢
        rw [if_pos hq]
        exact List.mem_singleton_self p
      | cons n ns => cases hns
  | @directory es hnodup hnames _ ih =>
    rw [sourceFiles, sourceFilesIn_eq, List.mem_flatMap]
    constructor
    · rintro ⟨⟨n, d⟩, hd, hq⟩
      obtain ⟨hsource, ns, c, hc, rfl⟩ := (ih _ hd).1 hq
      refine ⟨hsource, n :: ns, c, ?_, rfl⟩
      rw [get?_directory_cons, (lookup_eq_some_iff hnodup).2 hd]
      exact hc
    · rintro ⟨hsource, ns, c, hns, rfl⟩
      cases ns with
      | nil => cases hns
      | cons n ns =>
        rw [get?_directory_cons] at hns
        obtain ⟨d, hd, hns⟩ := Option.bind_eq_some_iff.1 hns
        have hmem := (lookup_eq_some_iff hnodup).1 hd
        exact ⟨(n, d), hmem, (ih _ hmem).2 ⟨hsource, ns, c, hns, rfl⟩⟩

/-- **The walk finds no file twice.** -/
theorem WellFormed.nodup_sourceFiles {e : Entry} (h : e.WellFormed) {p : Text} (hp : p ≠ []) :
    (e.sourceFiles p).Nodup := by
  induction h generalizing p with
  | file content =>
    rw [sourceFiles]
    split_ifs
    · exact List.nodup_singleton p
    · exact List.nodup_nil
  | @directory es hnodup hnames hinner ih =>
    rw [sourceFiles, sourceFilesIn_eq, List.nodup_flatMap]
    constructor
    · intro d hd
      apply ih d hd
      rw [Path.join_name hp (hnames d hd)]
      exact Path.written_ne_nil (Path.isClean_names p (by simpa using hnames d hd)) (by simp)
    · -- paths from two entries differ in the name of the entry
      apply (List.pairwise_map.1 hnodup).imp_of_mem
      intro d d' hd hd' hne q hq hq'
      obtain ⟨-, ns, c, hc, hns⟩ := (hinner d hd).mem_sourceFiles.1 hq
      obtain ⟨-, ns', c', hc', hns'⟩ := (hinner d' hd').mem_sourceFiles.1 hq'
      have hway : (d.1 :: ns).foldl Path.join p = (d'.1 :: ns').foldl Path.join p :=
        hns.symm.trans hns'
      have heq := Path.foldl_join_injective hp (List.cons_ne_nil _ _) (List.cons_ne_nil _ _)
        (List.forall_mem_cons.2 ⟨hnames d hd, ((hinner d hd).get? hc).1⟩)
        (List.forall_mem_cons.2 ⟨hnames d' hd', ((hinner d' hd').get? hc').1⟩) hway
      exact hne (List.cons.inj heq).1

theorem unopenedIn?_eq_none_iff {p : Text} {es : List (Text × Entry)} :
    unopenedIn? p es = none ↔ ∀ d ∈ es, d.2.unopened? (Path.join p d.1) = none := by
  induction es with
  | nil => simp [unopenedIn?]
  | cons d es ih => rw [unopenedIn?, Option.or_eq_none_iff, ih, List.forall_mem_cons]

theorem exists_of_unopenedIn? {p q : Text} {es : List (Text × Entry)}
    (h : unopenedIn? p es = some q) : ∃ d ∈ es, d.2.unopened? (Path.join p d.1) = some q := by
  induction es with
  | nil => cases h
  | cons d es ih =>
    rw [unopenedIn?, Option.or_eq_some_iff] at h
    obtain h | ⟨-, h⟩ := h
    · exact ⟨d, List.mem_cons_self, h⟩
    · obtain ⟨d', hd', h⟩ := ih h
      exact ⟨d', List.mem_cons_of_mem _ hd', h⟩

/-- A walk opens all directories of an entry exactly if none of their paths is too long. -/
theorem WellFormed.unopened?_eq_none_iff {e : Entry} (h : e.WellFormed) {p : Text} :
    e.unopened? p = none ↔
      ∀ ns es, e.get? ns = some (.directory es) →
        (ns.foldl Path.join p).length ≤ FileTree.pathLimit := by
  induction h generalizing p with
  | file content =>
    refine ⟨fun _ ns es hns => ?_, fun _ => by rw [unopened?]⟩
    cases ns <;> cases hns
  | @directory es hnodup _ _ ih =>
    rw [unopened?]
    split_ifs with hlong
    · constructor
      · intro h
        cases h
      · intro h
        exact absurd (h [] es (get?_nil _)) (Nat.not_le.2 hlong)
    rw [unopenedIn?_eq_none_iff]
    constructor
    · intro h ns inner hns
      cases ns with
      | nil => exact Nat.not_lt.1 hlong
      | cons n ns =>
        rw [get?_directory_cons] at hns
        obtain ⟨d, hd, hns⟩ := Option.bind_eq_some_iff.1 hns
        have hmem := (lookup_eq_some_iff hnodup).1 hd
        exact (ih _ hmem).1 (h _ hmem) ns inner hns
    · intro h d hd
      refine (ih d hd).2 fun ns inner hns => h (d.1 :: ns) inner ?_
      rw [get?_directory_cons, (lookup_eq_some_iff hnodup).2 hd]
      exact hns

/-- A directory that a walk does not open has too long a path. -/
theorem WellFormed.exists_of_unopened? {e : Entry} (h : e.WellFormed) {p q : Text}
    (hq : e.unopened? p = some q) :
    ∃ ns es, e.get? ns = some (.directory es) ∧ q = ns.foldl Path.join p ∧
      FileTree.pathLimit < q.length := by
  induction h generalizing p with
  | file content => cases hq
  | @directory es hnodup _ _ ih =>
    rw [unopened?] at hq
    split_ifs at hq with hlong
    · obtain rfl := Option.some.inj hq
      exact ⟨[], es, get?_nil _, rfl, hlong⟩
    · obtain ⟨d, hd, hq⟩ := exists_of_unopenedIn? hq
      obtain ⟨ns, inner, hns, hp, hlength⟩ := ih d hd hq
      refine ⟨d.1 :: ns, inner, ?_, hp, hlength⟩
      rw [get?_directory_cons, (lookup_eq_some_iff hnodup).2 hd]
      exact hns

end Entry

/-- The path is told to be that of a source file by how it ends. -/
theorem isSourcePath_iff {p : Text} :
    isSourcePath p = true ↔
      Text.endsWith p (utf8 ".ts") = true ∨ Text.endsWith p (utf8 ".tsn") = true := by
  have hts : Path.extension p = utf8 ".ts" ↔ utf8 ".ts" <:+ p :=
    Path.extension_eq_iff (utf8 "ts") (by decide) (by decide)
  have htsn : Path.extension p = utf8 ".tsn" ↔ utf8 ".tsn" <:+ p :=
    Path.extension_eq_iff (utf8 "tsn") (by decide) (by decide)
  rw [isSourcePath, Bool.or_eq_true, decide_eq_true_eq, decide_eq_true_eq, hts, htsn, Text.endsWith,
    Text.endsWith, List.isSuffixOf_iff_suffix, List.isSuffixOf_iff_suffix]

namespace FileTree

/-- All names in the tree are file names, and in each directory they are different. -/
def WellFormed (t : FileTree) : Prop := (Entry.directory t.root).WellFormed

/-- The path of something below the directory at `root`: the path of the directory, and behind it
the names on the way to the entry. -/
def IsBelow (t : FileTree) (root p : Text) (e : Entry) : Prop :=
  ∃ here ns, t.resolve root = .ok here ∧ ns ≠ [] ∧ t.get? (here ++ ns) = some e ∧
    p = Path.join root (Text.join [Path.slash] ns)

/-- The path of a file below the directory at `root`: the path of the directory, and behind it the
names on the way to the file. -/
def IsFileBelow (t : FileTree) (root p : Text) : Prop :=
  ∃ here ns content, t.resolve root = .ok here ∧ ns ≠ [] ∧
    t.get? (here ++ ns) = some (.file content) ∧
    p = Path.join root (Text.join [Path.slash] ns)

section

variable {t : FileTree} {root p : Text} {e : Entry}

theorem isFileBelow_iff_exists : t.IsFileBelow root p ↔
    ∃ content, t.IsBelow root p (.file content) := by
  constructor
  · rintro ⟨here, ns, content, h⟩
    exact ⟨content, here, ns, h⟩
  · rintro ⟨content, here, ns, h⟩
    exact ⟨here, ns, content, h⟩

theorem ne_nil_of_resolve {here : List Text} (h : t.resolve root = .ok here) : root ≠ [] :=
  (pathFault?_eq_none_iff.1 (resolve_eq_ok_iff.1 h).1).2.1

theorem length_le_of_resolve {here : List Text} (h : t.resolve root = .ok here) :
    root.length ≤ pathLimit :=
  (pathFault?_eq_none_iff.1 (resolve_eq_ok_iff.1 h).1).2.2

theorem IsBelow.exists_names (ht : t.WellFormed) (h : t.IsBelow root p e) :
    ∃ here ns, t.resolve root = .ok here ∧ ns ≠ [] ∧ (∀ n ∈ ns, Path.IsFileName n) ∧
      t.get? (here ++ ns) = some e ∧
        p = Path.written (Path.isAbsolute root) (Path.kept root ++ ns) := by
  obtain ⟨here, ns, hroot, hne, hentry, rfl⟩ := h
  have hnames : ∀ n ∈ ns, Path.IsFileName n := fun n hn =>
    (ht.get? hentry).1 n (List.mem_append_right _ hn)
  exact ⟨here, ns, hroot, hne, hnames, hentry,
    Path.join_fileNames (ne_nil_of_resolve hroot) hne hnames⟩

/-- The path of a file below a directory leads to a file, unless it is too long to be looked up. -/
theorem IsFileBelow.exists_read (ht : t.WellFormed) (h : t.IsFileBelow root p)
    (hlength : p.length ≤ pathLimit) : ∃ content, t.read p = .ok content := by
  obtain ⟨content, hbelow⟩ := isFileBelow_iff_exists.1 h
  obtain ⟨here, ns, hroot, hne, hnames, hentry, hp⟩ := hbelow.exists_names ht
  obtain ⟨hfault, hleads⟩ := resolve_eq_ok_iff.1 hroot
  refine ⟨content, ?_⟩
  rw [read_eq_ok_iff, find_eq_ok_iff]
  refine ⟨here ++ ns, ?_, hentry⟩
  rw [resolve_eq_ok_iff]
  have hclean := Path.isClean_names root hnames
  have hkept : Path.kept root ++ ns ≠ [] := List.append_ne_nil_of_right_ne_nil _ hne
  have horigin : t.origin p = t.origin root := by
    rw [origin, origin, hp, Path.isAbsolute_written hclean]
  have hway : t.Leads (t.origin root) (Path.kept root ++ ns) (here ++ ns) :=
    hleads.kept.append
      (leads_of_entry hentry fun n hn => ⟨(hnames n hn).proper, (hnames n hn).length_le⟩)
  constructor
  · have hzero : 0 ∉ p := by
      rw [hp]
      apply Path.notMem_written hkept (by decide)
      intro n hn
      rcases List.mem_append.1 hn with hn | hn
      · exact Path.notMem_of_mem_kept hn (by decide) (pathFault?_eq_none_iff.1 hfault).1
      · exact (hnames n hn).zero
    have hnil : p ≠ [] := by
      rw [hp]
      exact Path.written_ne_nil hclean hkept
    exact pathFault?_eq_none_iff.2 ⟨hzero, hnil, hlength⟩
  · rw [horigin, hp, Path.names_written hclean hkept]
    by_cases hrooted : Path.isAbsolute root = true
    · have hnone : t.seen? (t.origin root) = some none := by
        rw [origin, if_pos hrooted]
        exact seen?_nil
      rw [if_pos hrooted]
      exact .stay hnone (.inl rfl) hway
    · rw [if_neg hrooted]
      exact hway

/-- What is below an entry, as a walk comes to it. -/
theorem isBelow_iff (ht : t.WellFormed) {here : List Text} (hroot : t.resolve root = .ok here)
    (he : t.get? here = some e) {d : Entry} :
    t.IsBelow root p d ↔ ∃ ns, ns ≠ [] ∧ e.get? ns = some d ∧ p = ns.foldl Path.join root := by
  have hne := ne_nil_of_resolve hroot
  have hget (ns : List Text) : t.get? (here ++ ns) = e.get? ns := by
    rw [get?] at he ⊢
    rw [Entry.get?_append, he, Option.bind_some]
  constructor
  · intro h
    obtain ⟨here', ns, hroot', hns, hnames, hentry, rfl⟩ := h.exists_names ht
    obtain rfl := Except.ok.inj (hroot.symm.trans hroot')
    exact ⟨ns, hns, (hget ns).symm.trans hentry, (Path.foldl_join hne hns hnames).symm⟩
  · rintro ⟨ns, hnil, hns, rfl⟩
    have hnames := ((ht.get? he).2.get? hns).1
    refine ⟨here, ns, hroot, hnil, (hget ns).trans hns, ?_⟩
    rw [Path.foldl_join hne hnil hnames, Path.join_fileNames hne hnil hnames]

/-- The files below a directory, as the walk comes to them. -/
theorem isFileBelow_iff (ht : t.WellFormed) {here : List Text} (hroot : t.resolve root = .ok here)
    {es : List (Text × Entry)} (hes : t.get? here = some (.directory es)) :
    t.IsFileBelow root p ↔
      ∃ ns content, (Entry.directory es).get? ns = some (.file content) ∧
        p = ns.foldl Path.join root := by
  rw [isFileBelow_iff_exists]
  constructor
  · rintro ⟨content, h⟩
    obtain ⟨ns, -, hns⟩ := (isBelow_iff ht hroot hes).1 h
    exact ⟨ns, content, hns⟩
  · rintro ⟨ns, content, hns, hp⟩
    have hnil : ns ≠ [] := by
      rintro rfl
      cases hns
    exact ⟨content, (isBelow_iff ht hroot hes).2 ⟨ns, hnil, hns, hp⟩⟩

/-- The walk comes to the source files below a directory. -/
theorem mem_sourceFilesIn (ht : t.WellFormed) {here : List Text} (hroot : t.resolve root = .ok here)
    {es : List (Text × Entry)} (hes : t.get? here = some (.directory es)) :
    p ∈ Entry.sourceFilesIn root es ↔ t.IsFileBelow root p ∧ isSourcePath p = true := by
  rw [isFileBelow_iff ht hroot hes, and_comm]
  exact (ht.get? hes).2.mem_sourceFiles

/-- **Listing opens every directory.** The files are listed exactly if no directory on the way has
too long a path. -/
theorem listSources_eq_ok_iff (ht : t.WellFormed) {files : List Text} :
    t.listSources root = .ok files ↔ t.sourceFiles root = .ok files ∧
      ∀ q es, t.IsBelow root q (.directory es) → q.length ≤ pathLimit := by
  rw [listSources]
  cases hfind : t.find root with
  | error o => simp [Except.toOption, sourceFiles, hfind]
  | ok e =>
    obtain ⟨here, hroot, he⟩ := find_eq_ok_iff.1 hfind
    have hopen : e.unopened? root = none ↔
        ∀ q es, t.IsBelow root q (.directory es) → q.length ≤ pathLimit := by
      rw [(ht.get? he).2.unopened?_eq_none_iff]
      constructor
      · intro h q es hq
        obtain ⟨ns, -, hns, rfl⟩ := (isBelow_iff ht hroot he).1 hq
        exact h ns es hns
      · intro h ns es hns
        by_cases hnil : ns = []
        · rw [hnil]
          exact length_le_of_resolve hroot
        · exact h _ es ((isBelow_iff ht hroot he).2 ⟨ns, hnil, hns, rfl⟩)
    rw [Except.toOption, Option.bind_some]
    cases hq : e.unopened? root with
    | none => exact (and_iff_left (hopen.1 hq)).symm
    | some q =>
      constructor
      · intro h
        cases h
      · rintro ⟨-, h⟩
        rw [hopen.2 h] at hq
        cases hq

/-- Where the files of a watch are not listed although its root is there, a directory with too long
a path is named. -/
theorem listSources_eq_error (ht : t.WellFormed) {files : List Text}
    (hfiles : t.sourceFiles root = .ok files) {err : FileError}
    (h : t.listSources root = .error err) :
    ∃ q es, t.IsBelow root q (.directory es) ∧ pathLimit < q.length ∧
      err = ⟨utf8 "open", q, .tooLong⟩ := by
  rw [listSources] at h
  cases hfind : t.find root with
  | error o =>
    rw [sourceFiles, hfind] at hfiles
    cases hfiles
  | ok e =>
    obtain ⟨here, hroot, he⟩ := find_eq_ok_iff.1 hfind
    rw [hfind, Except.toOption, Option.bind_some] at h
    cases hq : e.unopened? root with
    | none =>
      rw [hq, hfiles] at h
      cases h
    | some q =>
      rw [hq] at h
      obtain ⟨ns, es, hns, hpath, hlong⟩ := (ht.get? he).2.exists_of_unopened? hq
      have hnil : ns ≠ [] := by
        rintro rfl
        rw [hpath] at hlong
        exact Nat.not_lt.2 (length_le_of_resolve hroot) hlong
      exact ⟨q, es, (isBelow_iff ht hroot he).2 ⟨ns, hnil, hns, hpath⟩, hlong,
        (Except.error.inj h).symm⟩

end

end FileTree

/-- **The first files of a watch and the events it takes are about the same files.** Below a
directory these are the files whose name ends with `.ts` or `.tsn`, each of them once; for a file it
is the file alone. They are listed where every directory on the way can be opened. -/
theorem sourceFiles_covered {t : FileTree} (ht : t.WellFormed) {root : Text} {isDirectory : Bool}
    (h : t.isDirectory root = .ok isDirectory) :
    ∃ files, t.sourceFiles root = .ok files ∧
      (t.listSources root = .ok files ↔
        ∀ q es, t.IsBelow root q (.directory es) → q.length ≤ FileTree.pathLimit) ∧
      files.Nodup ∧
      (∀ p ∈ files, p.length ≤ FileTree.pathLimit → ∃ content, t.read p = .ok content) ∧
      (isDirectory = true →
        (∀ p, p ∈ files ↔ t.IsFileBelow root p ∧
          (Text.endsWith p (utf8 ".ts") = true ∨ Text.endsWith p (utf8 ".tsn") = true)) ∧
        ∀ p, t.IsFileBelow root p → (watchCovers root isDirectory p = true ↔ p ∈ files)) ∧
      (isDirectory = false →
        files = [root] ∧ ∀ p, watchCovers root isDirectory p = true ↔ p = root) := by
  have hlisted {files : List Text} (hfiles : t.sourceFiles root = .ok files) :
      t.listSources root = .ok files ↔
        ∀ q es, t.IsBelow root q (.directory es) → q.length ≤ FileTree.pathLimit := by
    rw [FileTree.listSources_eq_ok_iff ht, and_iff_right hfiles]
  rw [FileTree.isDirectory] at h
  cases hfind : t.find root with
  | error o =>
    rw [hfind] at h
    cases h
  | ok e =>
    obtain ⟨here, hroot, hentry⟩ := FileTree.find_eq_ok_iff.1 hfind
    rw [hfind] at h
    cases e with
    | file content =>
      obtain rfl := Except.ok.inj h
      have hfiles : t.sourceFiles root = .ok [root] := by rw [FileTree.sourceFiles, hfind]
      refine ⟨[root], hfiles, hlisted hfiles, List.nodup_singleton root, ?_,
        fun htrue => absurd htrue (by decide), fun _ => ⟨rfl, ?_⟩⟩
      · intro p hp _
        obtain rfl := List.mem_singleton.1 hp
        exact ⟨content, FileTree.read_eq_ok_iff.2 hfind⟩
      · intro p
        exact decide_eq_true_iff
    | directory es =>
      obtain rfl := Except.ok.inj h
      have hwell := (ht.get? hentry).2
      have hmem (p : Text) := FileTree.mem_sourceFilesIn (p := p) ht hroot hentry
      have hfiles : t.sourceFiles root = .ok (Entry.sourceFilesIn root es) := by
        rw [FileTree.sourceFiles, hfind]
      refine ⟨Entry.sourceFilesIn root es, hfiles, hlisted hfiles,
        hwell.nodup_sourceFiles (FileTree.ne_nil_of_resolve hroot), ?_,
        fun _ => ⟨?_, ?_⟩, fun hfalse => absurd hfalse (by decide)⟩
      · intro p hp hlength
        exact ((hmem p).1 hp).1.exists_read ht hlength
      · intro p
        rw [hmem p, isSourcePath_iff]
      · intro p hbelow
        rw [hmem p, and_iff_right hbelow]
        rfl

/-- A directory that is named like a source file, with a file in it that has nothing but an
extension. -/
def nested : Entry :=
  .directory [(utf8 "b.ts", .directory [(utf8 ".tsn", .file []), (utf8 "c.ts.txt", .file [])])]

theorem nested_wellFormed : nested.WellFormed := by
  refine .directory (by decide) (by decide) (List.forall_mem_singleton.2 ?_)
  refine .directory (by decide) (by decide) (List.forall_mem_cons.2 ⟨.file [], ?_⟩)
  exact List.forall_mem_singleton.2 (.file [])

theorem sourceFiles_covered_nested :
    let t : FileTree := ⟨[(utf8 "a", nested)], []⟩
    let root := utf8 "a/../a/"
    t.WellFormed ∧ t.isDirectory root = .ok true ∧
      ∃ files, t.sourceFiles root = .ok files ∧ t.listSources root = .ok files ∧ files.Nodup ∧
        (∀ p, p ∈ files ↔ t.IsFileBelow root p ∧
          (Text.endsWith p (utf8 ".ts") = true ∨ Text.endsWith p (utf8 ".tsn") = true)) ∧
        ∀ p, t.IsFileBelow root p → (watchCovers root true p = true ↔ p ∈ files) := by
  intro t root
  have hwell : t.WellFormed :=
    .directory (by decide) (by decide) (List.forall_mem_singleton.2 nested_wellFormed)
  have hdirectory : t.isDirectory root = .ok true := by rfl
  have hlisted : t.listSources root = t.sourceFiles root := by rfl
  obtain ⟨files, hfiles, -, hnodup, -, hcovered, -⟩ := sourceFiles_covered hwell hdirectory
  exact ⟨hwell, hdirectory, files, hfiles, hlisted.trans hfiles, hnodup, hcovered rfl⟩

end Scriptlet
