import Mathlib.Data.Bool.AllAny
import ClrDebugInfo.Library.Uri
import ClrDebugInfo.Server.Fetch

/-!
# The URL of a request

What the web server is asked for when `server_thread` puts a URL together from a base URL, the
prefix and the path of a request. The checks of `server_thread` look at the bytes of the path; what
they mean is decided by libcurl and the server, which split the URL and decode its path. So a
question mark, a number sign or an escape in the path make the daemon ask for something else, and a
path without its slash leads out of the directory of the prefix.
-/

namespace ClrDebugInfo

/-- The path of a URL, as libcurl and the server read it. -/
def urlPath (url : Bytes) : Bytes := Uri.percentDecode (Uri.path url)

/-- A base URL ends in a slash and has no query, fragment or escape. -/
structure BaseUrl (base : Bytes) : Prop where
  slash : base.getLast? = some 47
  plain : ∀ c ∈ base, c ≠ 63 ∧ c ≠ 35 ∧ c ≠ 37

/-- The URL that `server_thread` makes of a request asks for what the request asked for. -/
structure AsksAsAsked (base : Bytes) (r : Request) : Prop where
  path : urlPath (requestUrl base r) = Uri.path base ++ r.pfx ++ r.path ++ bytes ".tar"
  /-- It lies in the directory of the prefix. -/
  below : Uri.path base ++ r.pfx ++ bytes "/" <+: urlPath (requestUrl base r)
  /-- And is not led out of it again. -/
  noDotDot : bytes ".." ∉ Uri.segments (urlPath (requestUrl base r))

/-- A path that means the same in a URL. -/
structure UrlSafe (path : Bytes) : Prop where
  slash : bytes "/" <+: path
  noQuery : 63 ∉ path
  noFragment : 35 ∉ path
  noEscape : Uri.hasEscape path = false

instance (path : Bytes) : Decidable (UrlSafe path) :=
  decidable_of_iff (bytes "/" <+: path ∧ 63 ∉ path ∧ 35 ∉ path ∧ Uri.hasEscape path = false)
    ⟨fun h ↦ ⟨h.1, h.2.1, h.2.2.1, h.2.2.2⟩, fun h ↦ ⟨h.1, h.2, h.3, h.4⟩⟩

variable {base : Bytes} {r : Request}

/-! ## Base URLs -/

theorem BaseUrl.noQuery (hb : BaseUrl base) : 63 ∉ base ∧ 35 ∉ base :=
  ⟨fun h ↦ (hb.plain _ h).1 rfl, fun h ↦ (hb.plain _ h).2.1 rfl⟩

theorem BaseUrl.path_suffix (hb : BaseUrl base) : Uri.path base <:+ base := by
  rw [Uri.path_eq hb.noQuery]
  exact (Uri.afterAuthority_suffix _).trans (Uri.afterScheme_suffix base)

theorem BaseUrl.noEscape_path (hb : BaseUrl base) : 37 ∉ Uri.path base :=
  fun h ↦ (hb.plain _ (hb.path_suffix.mem h)).2.2 rfl

theorem BaseUrl.exists_path (hb : BaseUrl base) (hne : Uri.path base ≠ []) :
    ∃ dir, Uri.path base = dir ++ [47] := by
  obtain ⟨w, hw⟩ := hb.path_suffix
  obtain ⟨dir, c, hdir⟩ := List.eq_nil_or_concat (Uri.path base) |>.resolve_left hne
  have hlast := hb.slash
  rw [← hw, hdir, List.concat_eq_append, ← List.append_assoc, List.getLast?_concat,
    Option.some_inj] at hlast
  exact ⟨dir, by rw [hdir, hlast, List.concat_eq_append]⟩

/-! ## Accepted requests -/

/-- What `server_thread` has checked. -/
structure Accepted (r : Request) : Prop where
  noDotDot : ¬bytes ".." <:+: r.path
  pfx : r.pfx = bytes "lib" ∨ r.pfx = bytes "src"

theorem acceptRequest_iff : acceptRequest r = true ↔ r.path ≠ bytes "/" ∧
    ¬bytes ".." <:+: r.path ∧ ¬bytes ".." <:+: r.pfx ∧ 39 ∉ r.path ∧ 59 ∉ r.path ∧
      (r.pfx = bytes "lib" ∨ r.pfx = bytes "src") := by
  have hroot : (r.path.length == 1 && r.path == bytes "/") = (r.path == bytes "/") := by
    by_cases h : r.path = bytes "/"
    · rw [h]
      decide
    · rw [beq_false_of_ne h, Bool.and_false]
  have hquote : bytes "'" <:+: r.path ↔ 39 ∈ r.path := List.singleton_infix_iff _ _
  have hsemicolon : bytes ";" <:+: r.path ↔ 59 ∈ r.path := List.singleton_infix_iff _ _
  rw [acceptRequest, hroot]
  simp only [strstr, Bool.and_eq_true, Bool.not_eq_true', Bool.or_eq_false_iff,
    decide_eq_false_iff_not, Bool.or_eq_true, beq_iff_eq, beq_eq_false_iff_ne, hquote, hsemicolon,
    and_assoc, ne_eq]

theorem accepted_of_acceptRequest (h : acceptRequest r = true) : Accepted r := by
  obtain ⟨-, hdots, -, -, -, hpfx⟩ := acceptRequest_iff.mp h
  exact ⟨hdots, hpfx⟩

theorem Accepted.pfx_plain (hr : Accepted r) :
    (∀ c ∈ r.pfx, c ≠ 47 ∧ c ≠ 63 ∧ c ≠ 35 ∧ c ≠ 37) ∧ r.pfx ≠ [] ∧ r.pfx ≠ bytes ".." := by
  rcases hr.pfx with h | h
  · rw [h]
    exact ⟨List.all_iff_forall_prop.mp (by decide), by decide, by decide⟩
  · rw [h]
    exact ⟨List.all_iff_forall_prop.mp (by decide), by decide, by decide⟩

/-- What a request appends to a base URL. -/
def requestPart (r : Request) : Bytes := r.pfx ++ r.path ++ bytes ".tar"

theorem requestUrl_eq (base : Bytes) (r : Request) : requestUrl base r = base ++ requestPart r := by
  rw [requestUrl, requestPart, List.append_assoc, List.append_assoc, List.append_assoc]

theorem Accepted.exists_requestPart (hr : Accepted r) :
    ∃ c rest, requestPart r = c :: rest ∧ c ≠ 47 ∧ c ≠ 63 ∧ c ≠ 35 := by
  obtain ⟨hplain, hne, -⟩ := hr.pfx_plain
  obtain ⟨c, rest, hpfx⟩ := List.exists_cons_of_ne_nil hne
  have hc := hplain c (by rw [hpfx]; exact List.mem_cons_self)
  exact ⟨c, _, by rw [requestPart, hpfx]; rfl, hc.1, hc.2.1, hc.2.2.1⟩

private theorem mem_requestPart_iff (hr : Accepted r) {c : UInt8} (hc : c = 63 ∨ c = 35) :
    c ∈ requestPart r ↔ c ∈ r.path := by
  have hpfx : c ∉ r.pfx := fun h ↦ by
    have := hr.pfx_plain.1 c h
    rcases hc with rfl | rfl
    · exact this.2.1 rfl
    · exact this.2.2.1 rfl
  have htar : c ∉ bytes ".tar" := by
    rcases hc with rfl | rfl
    · decide
    · decide
  rw [requestPart, List.mem_append, List.mem_append, or_iff_right hpfx, or_iff_left htar]

private theorem beforeQuery_requestPart_iff (hr : Accepted r) :
    Uri.beforeQuery (requestPart r) = requestPart r ↔ 63 ∉ r.path ∧ 35 ∉ r.path := by
  rw [Uri.beforeQuery_eq_self_iff, mem_requestPart_iff hr (Or.inl rfl),
    mem_requestPart_iff hr (Or.inr rfl)]

private theorem hasEscape_requestPart (hb : BaseUrl base) (hr : Accepted r) :
    Uri.hasEscape (Uri.path base ++ requestPart r) = Uri.hasEscape r.path := by
  have hpfx : 37 ∉ r.pfx := fun h ↦ (hr.pfx_plain.1 _ h).2.2.2 rfl
  rw [Uri.hasEscape_append_left hb.noEscape_path, requestPart, List.append_assoc,
    Uri.hasEscape_append_left hpfx]
  exact Uri.hasEscape_append_right (by decide) (by decide) r.path

theorem urlPath_requestUrl (hb : BaseUrl base) (hr : Accepted r) (hne : Uri.path base ≠ []) :
    urlPath (requestUrl base r) =
      Uri.percentDecode (Uri.path base ++ Uri.beforeQuery (requestPart r)) := by
  obtain ⟨c, rest, hpart, hc, -⟩ := hr.exists_requestPart
  have hhead : (requestPart r).head? ≠ some 47 := by
    rw [hpart, List.head?_cons]
    exact fun h ↦ hc (Option.some.inj h)
  rw [urlPath, requestUrl_eq, Uri.path_append hb.slash hb.noQuery hhead hne]

theorem urlPath_eq_iff (hb : BaseUrl base) (hr : Accepted r) :
    urlPath (requestUrl base r) = Uri.path base ++ requestPart r ↔
      Uri.path base ≠ [] ∧ 63 ∉ r.path ∧ 35 ∉ r.path ∧ Uri.hasEscape r.path = false := by
  rw [← and_assoc (a := 63 ∉ r.path), ← beforeQuery_requestPart_iff hr,
    ← hasEscape_requestPart hb hr]
  constructor
  · intro heq
    have hne : Uri.path base ≠ [] := by
      intro hnil
      obtain ⟨c, rest, hpart, hc⟩ := hr.exists_requestPart
      have hlt := Uri.length_path_append_lt hb.slash hb.noQuery hnil hc rest
      have hle := Uri.length_percentDecode_le (Uri.path (requestUrl base r))
      rw [← urlPath, heq, hnil, requestUrl_eq, hpart, List.nil_append] at hle
      omega
    have hself : Uri.beforeQuery (requestPart r) = requestPart r := by
      -- the query is cut off, and decoding does not make a string longer
      have hle := Uri.length_percentDecode_le (Uri.path base ++ Uri.beforeQuery (requestPart r))
      rw [← urlPath_requestUrl hb hr hne, heq, List.length_append, List.length_append] at hle
      exact (List.takeWhile_prefix _).eq_of_length_le (by rw [← Uri.beforeQuery]; omega)
    rw [urlPath_requestUrl hb hr hne, hself] at heq
    exact ⟨hne, hself, Uri.percentDecode_eq_self_iff.mp heq⟩
  · rintro ⟨hne, hself, hescape⟩
    rw [urlPath_requestUrl hb hr hne, hself]
    exact Uri.percentDecode_eq_self_iff.mpr hescape

private theorem slash_prefix_iff : r.pfx ++ bytes "/" <+: requestPart r ↔ bytes "/" <+: r.path := by
  rw [requestPart, List.append_assoc, List.prefix_append_right_inj]
  cases hpath : r.path with
  | nil => decide
  | cons c rest => simp [bytes, List.cons_prefix_cons]

private theorem dotDot_mem_segments_iff (hb : BaseUrl base) (hr : Accepted r)
    (hne : Uri.path base ≠ []) (hslash : bytes "/" <+: r.path) :
    bytes ".." ∈ Uri.segments (Uri.path base ++ requestPart r) ↔
      bytes ".." ∈ Uri.segments (Uri.path base) := by
  obtain ⟨dir, hdir⟩ := hb.exists_path hne
  obtain ⟨file, hfile⟩ := hslash
  obtain ⟨hplain, -, hdots⟩ := hr.pfx_plain
  have hpart : requestPart r = r.pfx ++ 47 :: (file ++ bytes ".tar") := by
    rw [requestPart, ← hfile, List.append_assoc]
    rfl
  have hfile' : bytes ".." ∉ Uri.segments (file ++ bytes ".tar") := by
    intro h
    rcases Uri.mem_segments_append (by decide) h with hin | hsuffix
    · exact hr.noDotDot (hin.trans (hfile ▸ (List.suffix_append _ file).isInfix))
    · exact absurd hsuffix.length_le (by decide)
  have hmid : bytes ".." ∉ (requestPart r).splitOn 47 := by
    rw [hpart, List.splitOn_append_cons_self_of_not_mem fun h ↦ (hplain _ h).1 rfl, List.mem_cons,
      not_or]
    exact ⟨hdots.symm, hfile'⟩
  have hend : bytes ".." ∉ List.splitOn 47 [] := by decide
  rw [hdir, List.append_assoc, List.singleton_append, Uri.segments, Uri.segments,
    List.splitOn_append_cons_self, List.splitOn_append_cons_self, List.mem_append, List.mem_append,
    or_iff_left hmid, or_iff_left hend]

/-! ## What is fetched -/

/-- **The URL of a request.** A message that `server_thread` goes on to fetch is fetched as asked
exactly if its path starts with a slash and has no question mark, number sign or escape in it (and
the base URL has a path, without a `..`): nothing of this is checked. -/
theorem asksAsAsked_iff {msg : Bytes} (hb : BaseUrl base)
    (hr : parseRequest (requestBuffer msg) = some (some r)) :
    AsksAsAsked base r ↔ UrlSafe r.path ∧ Uri.path base ≠ [] ∧
      bytes ".." ∉ Uri.segments (Uri.path base) := by
  have hacc := accepted_of_acceptRequest (acceptRequest_of_parseRequest hr)
  have hassoc : Uri.path base ++ r.pfx ++ r.path ++ bytes ".tar" =
      Uri.path base ++ requestPart r := by
    rw [requestPart, List.append_assoc, List.append_assoc, List.append_assoc]
  constructor
  · rintro ⟨hpath, hbelow, hdots⟩
    rw [hassoc] at hpath
    rw [hpath] at hbelow hdots
    rw [List.append_assoc, List.prefix_append_right_inj, slash_prefix_iff] at hbelow
    obtain ⟨hne, hquery, hfragment, hescape⟩ := (urlPath_eq_iff hb hacc).mp hpath
    rw [dotDot_mem_segments_iff hb hacc hne hbelow] at hdots
    exact ⟨⟨hbelow, hquery, hfragment, hescape⟩, hne, hdots⟩
  · rintro ⟨⟨hslash, hquery, hfragment, hescape⟩, hne, hdots⟩
    have hpath := (urlPath_eq_iff hb hacc).mpr ⟨hne, hquery, hfragment, hescape⟩
    refine ⟨hpath.trans hassoc.symm, ?_, ?_⟩
    · rw [hpath, List.append_assoc, List.prefix_append_right_inj, slash_prefix_iff]
      exact hslash
    · rwa [hpath, dotDot_mem_segments_iff hb hacc hne hslash]

/-- The first of the two default mirrors, and the path of a program. -/
theorem asksAsAsked_iff_bash : ∃ base r, urlsDefault.head? = some base ∧
    parseRequest (requestBuffer (bytes "0:lib:/usr/bin/bash" ++ [0])) = some (some r) ∧
      (AsksAsAsked base r ↔ UrlSafe r.path ∧ Uri.path base ≠ [] ∧
        bytes ".." ∉ Uri.segments (Uri.path base)) := by
  have hparse : parseRequest (requestBuffer (bytes "0:lib:/usr/bin/bash" ++ [0])) =
      some (some ⟨0, bytes "lib", bytes "/usr/bin/bash"⟩) := rfl
  exact ⟨_, _, rfl, hparse, asksAsAsked_iff ⟨rfl, List.all_iff_forall_prop.mp (by decide)⟩ hparse⟩

/-- `0:lib:/%2e%2e/x` passes every check, and its URL is that of a file outside `lib`. -/
theorem asksAsAsked_fails_escape : ∃ base r, urlsDefault.head? = some base ∧ BaseUrl base ∧
    parseRequest (requestBuffer (bytes "0:lib:/%2e%2e/x" ++ [0])) = some (some r) ∧
      urlPath (requestUrl base r) = bytes "/debuginfo/lib/../x.tar" ∧ ¬AsksAsAsked base r := by
  have hpath : urlPath (requestUrl (bytes "https://cdn.download.clearlinux.org/debuginfo/")
      ⟨0, bytes "lib", bytes "/%2e%2e/x"⟩) = bytes "/debuginfo/lib/../x.tar" := by decide
  refine ⟨_, ⟨0, bytes "lib", bytes "/%2e%2e/x"⟩, rfl,
    ⟨rfl, List.all_iff_forall_prop.mp (by decide)⟩, rfl, hpath, fun h ↦ ?_⟩
  exact h.noDotDot (by rw [hpath]; decide)

end ClrDebugInfo
