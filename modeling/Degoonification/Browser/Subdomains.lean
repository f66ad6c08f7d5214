import Degoonification.Browser.Domains

/-! Blocking is closed under subdomains. All three tests of `isDomainBlocked` look at the
end or the inside of the host, so what passes one of them passes it behind another label.
Stripping a leading `www.` takes at most one label off, and what it leaves of a longer
host still ends with what it leaves of the shorter one, behind a dot unless they are the
same. `toLowerCase` is a parameter: of it counts only that it treats an ASCII end letter
by letter, whatever stands before. -/

namespace Degoonification.Browser

open Ipc (ascii)

/-- `String.prototype.toLowerCase`. A letter may come out by its surroundings, as a final
sigma does, but ASCII letters never do. -/
structure LowerCasing where
  toLowerCase : Bytes → Bytes
  ascii_eq : ∀ t, (∀ c ∈ t, c < 128) → toLowerCase t = lower t
  ascii_end : ∀ s t, (∀ c ∈ t, c < 128) → ∃ s', toLowerCase (s ++ t) = s' ++ lower t

/-- The letters of ASCII alone. -/
def asciiCasing : LowerCasing where
  toLowerCase := lower
  ascii_eq _ _ := rfl
  ascii_end s _ _ := ⟨lower s, List.map_append⟩

/-- The three loops of `isDomainBlocked`. -/
def blocksHost (domains tlds patterns : List Bytes) (host : Bytes) : Bool :=
  domains.any (fun domain => host == domain || (dot :: domain).isSuffixOf host) ||
    tlds.any (fun tld => tld.isSuffixOf host) ||
    patterns.any (fun pat => decide (pat <:+: host))

/-- `isDomainBlocked` with the `toLowerCase` of the browser. -/
def isNameBlocked (casing : LowerCasing) (domains tlds patterns : List Bytes) (hostname : Bytes) :
    Bool :=
  if hostname = [] then false
  else blocksHost domains tlds patterns (stripWww (casing.toLowerCase hostname))

variable {domains tlds patterns : List Bytes} {host host' : Bytes}

theorem blocksHost_iff : blocksHost domains tlds patterns host = true ↔
    (∃ d ∈ domains, host = d ∨ dot :: d <:+ host) ∨ (∃ tld ∈ tlds, tld <:+ host) ∨
      ∃ pat ∈ patterns, pat <:+: host := by
  simp only [blocksHost, Bool.or_eq_true, List.any_eq_true, beq_iff_eq, decide_eq_true_eq,
    List.isSuffixOf_iff_suffix, or_assoc]

/-- A blocked host is blocked behind any further label. -/
theorem blocksHost_of_suffix (h : blocksHost domains tlds patterns host = true)
    (hsuf : dot :: host <:+ host') : blocksHost domains tlds patterns host' = true := by
  have hend : host <:+ host' := (List.suffix_cons dot host).trans hsuf
  rw [blocksHost_iff] at h ⊢
  rcases h with ⟨d, hd, rfl | hdot⟩ | ⟨tld, htld, htail⟩ | ⟨pat, hpat, hin⟩
  · exact Or.inl ⟨host, hd, Or.inr hsuf⟩
  · exact Or.inl ⟨d, hd, Or.inr (hdot.trans hend)⟩
  · exact Or.inr (Or.inl ⟨tld, htld, htail.trans hend⟩)
  · exact Or.inr (Or.inr ⟨pat, hpat, hin.trans hend.isInfix⟩)

/-! ### Stripping -/

theorem www_append (t : Bytes) : ascii "www." ++ t = ascii "www" ++ dot :: t := rfl

/-- Stripping leaves the whole text or what follows the dot of `www.`. -/
theorem dot_cons_stripWww_suffix (s : Bytes) : dot :: stripWww s <:+ dot :: s := by
  rw [stripWww]
  split_ifs with hwww
  · obtain ⟨t, rfl⟩ := hwww
    rw [List.drop_left' (by decide), www_append]
    exact ⟨dot :: ascii "www", rfl⟩
  · exact List.suffix_rfl

/-- The first dot of a text is the one behind a dotless head, or lies before it. -/
theorem eq_or_of_append_dot {w s t u : Bytes} (hw : dot ∉ w)
    (h : w ++ dot :: u = s ++ dot :: t) : s = w ∨ ∃ v, s = w ++ dot :: v := by
  rcases List.append_eq_append_iff.mp h with ⟨v, rfl, hv⟩ | ⟨v, rfl, hv⟩
  · cases v with
    | nil => exact Or.inl (List.append_nil w)
    | cons c v =>
      obtain ⟨rfl, -⟩ := List.cons.inj hv
      exact Or.inr ⟨v, rfl⟩
  · cases v with
    | nil => exact Or.inl (List.append_nil s).symm
    | cons c v =>
      obtain ⟨rfl, -⟩ := List.cons.inj hv
      exact absurd (List.mem_append_right s List.mem_cons_self) hw

theorem stripWww_subdomain (s t : Bytes) :
    stripWww (s ++ dot :: t) = stripWww t ∨ dot :: stripWww t <:+ stripWww (s ++ dot :: t) := by
  have htail := dot_cons_stripWww_suffix t
  by_cases hwww : ascii "www." <+: s ++ dot :: t
  · rw [stripWww, if_pos hwww]
    obtain ⟨u, hu⟩ := hwww
    rw [www_append] at hu
    rcases eq_or_of_append_dot (by decide) hu with rfl | ⟨v, rfl⟩
    · -- the new label is the `www` that is stripped
      rw [← www_append, List.drop_left' (by decide), stripWww]
      split_ifs with hwww
      · obtain ⟨u, rfl⟩ := hwww
        rw [List.drop_left' (by decide), www_append]
        exact Or.inr (List.suffix_append _ _)
      · exact Or.inl rfl
    · rw [← www_append, List.append_assoc, List.drop_left' (by decide)]
      exact Or.inr (htail.trans (List.suffix_append v (dot :: t)))
  · have hkept : stripWww (s ++ dot :: t) = s ++ dot :: t := if_neg hwww
    rw [hkept]
    exact Or.inr (htail.trans (List.suffix_append s (dot :: t)))

/-! ### Names -/

/-- A name below a blocked name is blocked, whatever the rules and whatever stands in
front of the dot. -/
theorem isNameBlocked_subdomain (casing : LowerCasing) (domains tlds patterns : List Bytes)
    {hostname : Bytes} (hascii : ∀ c ∈ hostname, c < 128)
    (h : isNameBlocked casing domains tlds patterns hostname = true) (label : Bytes) :
    isNameBlocked casing domains tlds patterns (label ++ dot :: hostname) = true := by
  have hend : ∀ c ∈ dot :: hostname, c < 128 := List.forall_mem_cons.mpr ⟨by decide, hascii⟩
  obtain ⟨s, hs⟩ := casing.ascii_end label (dot :: hostname) hend
  have hlower : lower (dot :: hostname) = dot :: lower hostname := rfl
  rw [isNameBlocked] at h ⊢
  split_ifs at h with hne
  rw [casing.ascii_eq hostname hascii] at h
  rw [if_neg (List.append_ne_nil_of_right_ne_nil _ (List.cons_ne_nil _ _)), hs, hlower]
  rcases stripWww_subdomain s (lower hostname) with hsame | hsuf
  · rwa [hsame]
  · exact blocksHost_of_suffix h hsuf

/-- `www.www.example.com` below `www.example.com`, with a rule for `example.com`. -/
theorem isNameBlocked_subdomain_www :
    isNameBlocked asciiCasing [ascii "example.com"] [] []
      (ascii "www" ++ dot :: ascii "WWW.example.com") = true :=
  isNameBlocked_subdomain asciiCasing [ascii "example.com"] [] [] (by decide +kernel)
    (by decide +kernel) (ascii "www")

end Degoonification.Browser
