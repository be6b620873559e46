import Mathlib.Data.List.Induction
import Scriptlet.Files.Path
import Scriptlet.Proofs.Lines

/-!
# Clean paths

A path is cleaned by keeping names on a stack, where `..` takes one back. What is kept is kept again
(`normal_foldl_step`), so the names can be read off a clean path (`kept_written`), and names put
behind a path come out behind the names kept of it (`join_join`). The extension of a path is told by
how the path ends (`extension_eq_iff`).
-/

namespace Scriptlet.Path

/-! ### The names of a path -/

theorem names_ne_nil (p : Text) : names p ≠ [] := Text.splitOn_ne_nil slash p

theorem join_names (p : Text) : Text.join [slash] (names p) = p := Text.join_splitOn slash p

theorem names_of_notMem {n : Text} (h : slash ∉ n) : names n = [n] := Text.splitOn_of_notMem h

theorem names_append (a b : Text) : names (a ++ slash :: b) = names a ++ names b :=
  Text.splitOn_append slash a b

theorem notMem_of_mem_names {p n : Text} (h : n ∈ names p) : slash ∉ n :=
  Text.notMem_of_mem_splitOn h

theorem names_join {ns : List Text} (hne : ns ≠ []) (h : ∀ n ∈ ns, slash ∉ n) :
    names (Text.join [slash] ns) = ns := by
  induction ns with
  | nil => exact absurd rfl hne
  | cons n ns ih =>
    rw [List.forall_mem_cons] at h
    cases ns with
    | nil =>
      rw [Text.join, List.intercalate_singleton]
      exact names_of_notMem h.1
    | cons m ns =>
      rw [Text.join_cons_cons, List.singleton_append, names_append, names_of_notMem h.1,
        ih (List.cons_ne_nil m ns) h.2, List.singleton_append]

theorem mem_join_iff {ns : List Text} {b : UInt8} (hb : b ≠ slash) :
    b ∈ Text.join [slash] ns ↔ ∃ n ∈ ns, b ∈ n := by
  induction ns with
  | nil => simp [Text.join]
  | cons n ns ih =>
    cases ns with
    | nil => simp [Text.join]
    | cons m ns =>
      rw [Text.join_cons_cons, List.mem_append, List.mem_append, ih, List.mem_singleton]
      simp [hb]

/-- The last name of a path is empty only if a slash ends the path. -/
theorem endsWith_slash_of_names {p : Text} {ns : List Text} (hp : p ≠ [])
    (h : names p = ns ++ [[]]) : Text.endsWith p [slash] = true := by
  have hjoin := join_names p
  rw [h] at hjoin
  cases ns with
  | nil => exact absurd hjoin.symm hp
  | cons n ns =>
    rw [Text.join_append (List.cons_ne_nil n ns) (List.cons_ne_nil [] [])] at hjoin
    exact List.isSuffixOf_iff_suffix.2 ⟨_, hjoin⟩

/-! ### Clean paths -/

/-- A name that says where to go, and not to stay or to go back. -/
structure IsProper (n : Text) : Prop where
  ne_nil : n ≠ []
  ne_dot : n ≠ utf8 "."
  ne_dots : n ≠ utf8 ".."

instance (n : Text) : Decidable (IsProper n) :=
  decidable_of_iff (n ≠ [] ∧ n ≠ utf8 "." ∧ n ≠ utf8 "..")
    ⟨fun ⟨hnil, hdot, hdots⟩ => ⟨hnil, hdot, hdots⟩, fun ⟨hnil, hdot, hdots⟩ => ⟨hnil, hdot, hdots⟩⟩

theorem step_of_isProper {n : Text} (h : IsProper n) (rooted : Bool) (kept : List Text) :
    step rooted kept n = n :: kept := by
  unfold step
  rw [if_neg (by simp [h.ne_nil, h.ne_dot]), if_neg h.ne_dots]

theorem foldl_step_of_isProper {ns : List Text} (h : ∀ n ∈ ns, IsProper n) (rooted : Bool)
    (kept : List Text) : ns.foldl (step rooted) kept = ns.reverse ++ kept := by
  induction ns generalizing kept with
  | nil => rfl
  | cons n ns ih =>
    rw [List.forall_mem_cons] at h
    rw [List.foldl_cons, step_of_isProper h.1, ih h.2, List.reverse_cons, List.append_assoc]
    rfl

/-- The names that are kept of a path, the first one first. -/
def kept (p : Text) : List Text := ((names p).foldl (step (isAbsolute p)) []).reverse

/-- The path with the given names, from the root or not. -/
def written (rooted : Bool) (ns : List Text) : Text :=
  if rooted then slash :: Text.join [slash] ns
  else if ns.isEmpty then utf8 "."
  else Text.join [slash] ns

theorem clean_eq (p : Text) : clean p = written (isAbsolute p) (kept p) := rfl

/-- What one more name does to the names kept so far: it is dropped, takes back the last one, or is
kept. -/
theorem step_cases (rooted : Bool) (kept : List Text) (n : Text) :
    step rooted kept n <:+ kept ∨ step rooted kept n = n :: kept ∧ n ≠ [] ∧ n ≠ utf8 "." := by
  unfold step
  split
  · exact .inl (List.suffix_refl kept)
  · rename_i hstay
    rw [Bool.or_eq_true, decide_eq_true_eq, decide_eq_true_eq, not_or] at hstay
    split
    · cases kept with
      | nil =>
        cases rooted with
        | false => exact .inr ⟨rfl, hstay⟩
        | true => exact .inl (List.suffix_refl [])
      | cons last before =>
        by_cases hlast : last = utf8 ".."
        · exact .inr ⟨if_pos hlast, hstay⟩
        · refine .inl ?_
          simp only [if_neg hlast]
          exact List.suffix_cons last before
    · exact .inr ⟨rfl, hstay⟩

/-- The names are kept as they are, and so are the first of them, however many. -/
def Normal (rooted : Bool) (kept : List Text) : Prop :=
  ∀ k, k <:+ kept → k.reverse.foldl (step rooted) [] = k

theorem normal_step {rooted : Bool} {kept : List Text} (h : Normal rooted kept) (n : Text) :
    Normal rooted (step rooted kept n) := by
  rcases step_cases rooted kept n with hsuffix | ⟨hstep, -⟩
  · intro k hk
    exact h k (hk.trans hsuffix)
  · rw [hstep]
    intro k hk
    rcases List.suffix_cons_iff.1 hk with rfl | hk
    · rw [List.reverse_cons, List.foldl_append, h kept (List.suffix_refl kept), List.foldl_cons,
        List.foldl_nil, hstep]
    · exact h k hk

/-- **Names that were kept are kept again.** -/
theorem normal_foldl_step (rooted : Bool) (ns : List Text) :
    Normal rooted (ns.foldl (step rooted) []) := by
  induction ns using List.reverseRecOn with
  | nil =>
    intro k hk
    rw [List.suffix_nil.1 hk]
    rfl
  | append_singleton ns n ih =>
    rw [List.foldl_append]
    exact normal_step ih n

theorem mem_foldl_step {rooted : Bool} {ns : List Text} {n : Text}
    (h : n ∈ ns.foldl (step rooted) []) : n ∈ ns ∧ n ≠ [] ∧ n ≠ utf8 "." := by
  induction ns using List.reverseRecOn with
  | nil => cases h
  | append_singleton ns m ih =>
    rw [List.foldl_append, List.foldl_cons, List.foldl_nil] at h
    rcases step_cases rooted (ns.foldl (step rooted) []) m with hsuffix | ⟨hstep, hne⟩
    · obtain ⟨hmem, hne⟩ := ih (hsuffix.subset h)
      exact ⟨List.mem_append_left _ hmem, hne⟩
    · rw [hstep, List.mem_cons] at h
      rcases h with rfl | h
      · exact ⟨List.mem_concat_self, hne⟩
      · obtain ⟨hmem, hne⟩ := ih h
        exact ⟨List.mem_append_left _ hmem, hne⟩

theorem isAbsolute_cons (b : UInt8) (t : Text) : isAbsolute (b :: t) = (slash == b) :=
  Bool.and_true (slash == b)

theorem isAbsolute_append {p : Text} (hp : p ≠ []) (t : Text) :
    isAbsolute (p ++ t) = isAbsolute p := by
  obtain ⟨b, p, rfl⟩ := List.exists_cons_of_ne_nil hp
  rw [List.cons_append, isAbsolute_cons, isAbsolute_cons]

/-- A list of names that may stand in a clean path. -/
structure IsClean (rooted : Bool) (ns : List Text) : Prop where
  normal : Normal rooted ns.reverse
  ne_nil : ∀ n ∈ ns, n ≠ []
  slash : ∀ n ∈ ns, slash ∉ n

theorem isClean_kept (p : Text) : IsClean (isAbsolute p) (kept p) where
  normal := by
    rw [kept, List.reverse_reverse]
    exact normal_foldl_step (isAbsolute p) (names p)
  ne_nil n hn := (mem_foldl_step (List.mem_reverse.1 hn)).2.1
  slash n hn := notMem_of_mem_names (mem_foldl_step (List.mem_reverse.1 hn)).1

theorem IsClean.append {rooted : Bool} {ks ns : List Text} (hk : IsClean rooted ks)
    (hn : ∀ n ∈ ns, IsProper n ∧ Path.slash ∉ n) : IsClean rooted (ks ++ ns) := by
  induction ns using List.reverseRecOn with
  | nil => rwa [List.append_nil]
  | append_singleton ns n ih =>
    have hlast := hn n List.mem_concat_self
    obtain ⟨hnormal, hne, hslash⟩ := ih fun m hm => hn m (List.mem_append_left _ hm)
    rw [← List.append_assoc]
    refine ⟨?_, ?_, ?_⟩
    · rw [List.reverse_append, List.reverse_singleton, List.singleton_append,
        ← step_of_isProper hlast.1 rooted]
      exact normal_step hnormal n
    · exact List.forall_mem_append.2 ⟨hne, List.forall_mem_singleton.2 hlast.1.ne_nil⟩
    · exact List.forall_mem_append.2 ⟨hslash, List.forall_mem_singleton.2 hlast.2⟩

theorem isAbsolute_written {rooted : Bool} {ns : List Text} (h : IsClean rooted ns) :
    isAbsolute (written rooted ns) = rooted := by
  cases rooted with
  | true => rfl
  | false =>
    cases ns with
    | nil => rfl
    | cons n ns =>
      obtain ⟨b, m, rfl⟩ := List.exists_cons_of_ne_nil (h.ne_nil n List.mem_cons_self)
      have hb : slash ≠ b := by
        rintro rfl
        exact h.slash _ List.mem_cons_self List.mem_cons_self
      have hjoin : ∃ t, Text.join [slash] ((b :: m) :: ns) = b :: t := by
        cases ns with
        | nil => exact ⟨m, List.intercalate_singleton⟩
        | cons k ns => exact ⟨_, Text.join_cons_cons [slash] (b :: m) k ns⟩
      obtain ⟨t, ht⟩ := hjoin
      show isAbsolute (Text.join [slash] ((b :: m) :: ns)) = false
      rw [ht, isAbsolute_cons, beq_eq_false_iff_ne]
      exact hb

/-- The names of a clean path, but for what marks the root. -/
theorem names_written {rooted : Bool} {ns : List Text} (h : IsClean rooted ns) (hne : ns ≠ []) :
    names (written rooted ns) = if rooted then [] :: ns else ns := by
  have hjoin := names_join hne h.slash
  cases rooted with
  | true =>
    show names ([] ++ slash :: Text.join [slash] ns) = _
    rw [names_append, hjoin]
    rfl
  | false =>
    rw [written, if_neg (by simp), if_neg (by simpa using hne), hjoin]
    rfl

theorem written_ne_nil {rooted : Bool} {ns : List Text} (h : IsClean rooted ns) (hne : ns ≠ []) :
    written rooted ns ≠ [] := by
  intro hnil
  have hnames := names_written h hne
  rw [hnil] at hnames
  cases rooted with
  | true => exact hne (List.cons.inj hnames).2.symm
  | false =>
    have hns : [[]] = ns := hnames
    exact h.ne_nil [] (hns ▸ List.mem_singleton_self []) rfl

theorem notMem_written {rooted : Bool} {ns : List Text} (hne : ns ≠ []) {b : UInt8} (hb : b ≠ slash)
    (h : ∀ n ∈ ns, b ∉ n) : b ∉ written rooted ns := by
  have hjoin : b ∉ Text.join [slash] ns := by
    rw [mem_join_iff hb]
    rintro ⟨n, hn, hmem⟩
    exact h n hn hmem
  cases rooted with
  | true => exact List.not_mem_cons_of_ne_of_not_mem hb hjoin
  | false =>
    rw [written, if_neg (by simp), if_neg (by simpa using hne)]
    exact hjoin

theorem notMem_of_mem_kept {p n : Text} (hn : n ∈ kept p) {b : UInt8} (hb : b ≠ slash) (h : b ∉ p) :
    b ∉ n := by
  intro hmem
  rw [← join_names p, mem_join_iff hb] at h
  exact h ⟨n, (mem_foldl_step (List.mem_reverse.1 hn)).1, hmem⟩

/-- **A clean path stays as it is**: its names are kept. -/
theorem kept_written {rooted : Bool} {ns : List Text} (h : IsClean rooted ns) (hne : ns ≠ []) :
    kept (written rooted ns) = ns := by
  have hkept : ns.foldl (step rooted) [] = ns.reverse := by
    have := h.normal ns.reverse (List.suffix_refl _)
    rwa [List.reverse_reverse] at this
  rw [kept, isAbsolute_written h, names_written h hne]
  cases rooted with
  | true =>
    rw [if_pos rfl, List.foldl_cons]
    show (List.foldl (step true) [] ns).reverse = ns
    rw [hkept, List.reverse_reverse]
  | false =>
    rw [if_neg (by simp), hkept, List.reverse_reverse]

theorem written_injective {rooted : Bool} {ns ms : List Text} (hns : IsClean rooted ns)
    (hms : IsClean rooted ms) (hn : ns ≠ []) (hm : ms ≠ [])
    (h : written rooted ns = written rooted ms) : ns = ms := by
  rw [← kept_written hns hn, h, kept_written hms hm]

theorem join_of_ne_nil {p n : Text} (hp : p ≠ []) (hn : n ≠ []) :
    join p n = clean (p ++ slash :: n) := by
  rw [join, List.append_assoc]
  · rfl
  · exact hp
  · exact hn
  · exact fun h => absurd h hp

/-- **Names behind a path are kept**, behind those kept of the path. -/
theorem join_join {p : Text} (hp : p ≠ []) {ns : List Text} (hne : ns ≠ [])
    (h : ∀ n ∈ ns, IsProper n ∧ slash ∉ n) :
    join p (Text.join [slash] ns) = written (isAbsolute p) (kept p ++ ns) := by
  have hnames : names (Text.join [slash] ns) = ns := names_join hne fun n hn => (h n hn).2
  have hjoin : Text.join [slash] ns ≠ [] := by
    intro hnil
    rw [hnil] at hnames
    have hmem : [] ∈ ns := by
      rw [← hnames]
      exact List.mem_singleton_self []
    exact (h [] hmem).1.ne_nil rfl
  rw [join_of_ne_nil hp hjoin, clean_eq, isAbsolute_append hp, kept, isAbsolute_append hp,
    names_append, hnames, List.foldl_append, foldl_step_of_isProper fun n hn => (h n hn).1,
    List.reverse_append, List.reverse_reverse]
  rfl

/-! ### Extensions -/

/-- What stands before the first point. -/
theorem takeWhile_eq_iff {s t : Text} (h : 46 ∉ s) :
    t.takeWhile (· != 46) = s ∧ s.length < t.length ↔ s ++ [46] <+: t := by
  have hpos : ∀ b ∈ s, (b != 46) = true := fun b hb => bne_iff_ne.2 fun hpoint => h (hpoint ▸ hb)
  constructor
  · rintro ⟨htake, hlength⟩
    have hsplit := List.takeWhile_append_dropWhile (p := (· != 46)) (l := t)
    rw [htake] at hsplit
    cases hdrop : t.dropWhile (· != 46) with
    | nil =>
      rw [hdrop, List.append_nil] at hsplit
      rw [hsplit] at hlength
      exact absurd hlength (Nat.lt_irrefl _)
    | cons b r =>
      have hb := List.head_dropWhile_not (· != 46) (l := t) (hdrop ▸ List.cons_ne_nil b r)
      simp only [hdrop, List.head_cons, bne_eq_false_iff_eq] at hb
      refine ⟨r, ?_⟩
      rw [List.append_assoc, List.singleton_append, ← hb, ← hdrop, hsplit]
  · rintro ⟨r, rfl⟩
    rw [List.append_assoc, List.takeWhile_append_of_pos hpos]
    simp

/-- A word without a slash ends a path if it ends the path's last name. -/
theorem suffix_of_names {p n w : Text} {ns : List Text} (h : names p = ns ++ [n]) (hw : slash ∉ w) :
    w <:+ n ↔ w <:+ p := by
  have hjoin := join_names p
  rw [h] at hjoin
  cases ns with
  | nil => rw [← hjoin, List.nil_append, Text.join, List.intercalate_singleton]
  | cons m ns =>
    rw [Text.join_append (List.cons_ne_nil m ns) (List.cons_ne_nil n []), Text.join, Text.join,
      List.intercalate_singleton] at hjoin
    constructor
    · intro hn
      exact hn.trans (hjoin ▸ (List.suffix_cons slash n).trans (List.suffix_append _ _))
    · intro hp
      rw [← hjoin] at hp
      rcases List.suffix_or_suffix_of_suffix hp (List.suffix_append _ (slash :: n))
        with hsuffix | hsuffix
      · rcases List.suffix_cons_iff.1 hsuffix with rfl | hsuffix
        · exact absurd List.mem_cons_self hw
        · exact hsuffix
      · exact absurd (hsuffix.subset List.mem_cons_self) hw

theorem extension_eq_iff {p : Text} (tail : Text) (hpoint : 46 ∉ tail) (hslash : slash ∉ tail) :
    extension p = 46 :: tail ↔ 46 :: tail <:+ p := by
  obtain ⟨ns, n, hnames⟩ := (List.eq_nil_or_concat (names p)).resolve_left (names_ne_nil p)
  rw [List.concat_eq_append] at hnames
  have hw : slash ∉ 46 :: tail := List.not_mem_cons_of_ne_of_not_mem (by decide) hslash
  have hlast : (names p).getLastD [] = n := by rw [hnames, List.getLastD_concat]
  rw [← suffix_of_names hnames hw, ← List.reverse_prefix, List.reverse_cons,
    ← takeWhile_eq_iff fun h => hpoint (List.mem_reverse.1 h), extension, hlast]
  simp only [List.length_reverse]
  constructor
  · intro h
    split_ifs at h with hlength
    have htail := (List.cons.inj h).2
    rw [← htail, List.reverse_reverse, List.length_reverse]
    exact ⟨rfl, hlength⟩
  · rintro ⟨htake, hlength⟩
    rw [htake, List.reverse_reverse, List.length_reverse, if_pos hlength]

end Scriptlet.Path
