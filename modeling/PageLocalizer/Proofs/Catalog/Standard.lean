import PageLocalizer.Catalog.Standard
import PageLocalizer.Proofs.Catalog.Sources
import PageLocalizer.Proofs.Catalog.Templates
import PageLocalizer.Proofs.Fluent.Sameness

-- What the catalogs that come with the dashboard say, as it is read from their sources.
namespace PageLocalizer.Catalog

open Fluent

section Contents

-- A message whose attributes are plain texts.
def record (key : String) (value : Pattern) (defaults : List (String × String)) : Message :=
  ⟨key, some value, defaults.map fun (name, text) => ⟨name, [.text text]⟩⟩

def literals (texts : List (String × String)) : List Entry :=
  texts.map fun (key, text) => .message (record key [.text text] [])

def parameter (name : String) : Segment := .placeable (.inline (.parameter name))

def englishTexts : List (String × String) := [
  ("app_name", "DietPi Dashboard"),
  ("save", "Save"),
  ("cancel", "Cancel"),
  ("language_switch", "Switch language"),
  ("nav_toggle", "Toggle navigation"),
  ("nav_close", "Close navigation"),
  ("backend", "Backend"),
  ("messages", "Messages"),
  ("theme_toggle", "Toggle dark mode"),
  ("nav_system", "System"),
  ("nav_process", "Processes"),
  ("nav_software", "Software"),
  ("nav_service", "Services"),
  ("nav_management", "Management"),
  ("nav_terminal", "Terminal"),
  ("nav_browser", "File Browser"),
  ("process_title", "Processes"),
  ("process_filter", "Filter processes"),
  ("col_pid", "PID"),
  ("col_name", "Name"),
  ("col_status", "Status"),
  ("col_cpu", "CPU Usage"),
  ("col_ram", "RAM Usage"),
  ("col_actions", "Actions"),
  ("status_running", "Running"),
  ("status_paused", "Paused"),
  ("status_sleeping", "Sleeping"),
  ("status_other", "Other"),
  ("signal_kill", "Kill process"),
  ("signal_term", "Terminate process"),
  ("signal_resume", "Resume process"),
  ("signal_pause", "Pause process")]

def chineseTexts : List (String × String) := [
  ("app_name", "DietPi 仪表盘"),
  ("save", "保存"),
  ("cancel", "取消"),
  ("language_switch", "切换语言"),
  ("nav_toggle", "切换导航"),
  ("nav_close", "关闭导航"),
  ("backend", "后端"),
  ("messages", "消息"),
  ("theme_toggle", "切换深色模式"),
  ("nav_system", "系统"),
  ("nav_process", "进程"),
  ("nav_software", "软件"),
  ("nav_service", "服务"),
  ("nav_management", "管理"),
  ("nav_terminal", "终端"),
  ("nav_browser", "文件浏览器"),
  ("process_title", "进程"),
  ("process_filter", "筛选进程"),
  ("col_pid", "PID"),
  ("col_name", "名称"),
  ("col_status", "状态"),
  ("col_cpu", "CPU 使用率"),
  ("col_ram", "内存使用"),
  ("col_actions", "操作"),
  ("status_running", "运行中"),
  ("status_paused", "已暂停"),
  ("status_sleeping", "休眠"),
  ("status_other", "其他"),
  ("signal_kill", "强制结束进程"),
  ("signal_term", "终止进程"),
  ("signal_resume", "恢复进程"),
  ("signal_pause", "暂停进程")]

def englishTemplateEntries : List Entry := [
  .message (record "page_of" [.text "Page ", parameter "page", .text " / ", parameter "totalPages"]
    [("page", "?"), ("totalPages", "?")]),
  .message (record "process_count" [.text "Processes: ", parameter "count"] [("count", "0")]),
  .message (record "update_available" [.text "New version available: ", parameter "version"]
    [("version", "?")]),
  .message (record "dietpi_update" [.text "DietPi Update Available: ", parameter "version"]
    [("version", "?")]),
  .message (record "footer_credit" [.text "DietPi Dashboard v", parameter "version", .text " by ",
    parameter "author"] [("version", "?"), ("author", "ravenclaw900")])]

def chineseTemplateEntries : List Entry := [
  .message (record "page_of" [.text "第 ", parameter "page", .text " / ", parameter "totalPages",
    .text " 页"] [("page", "?"), ("totalPages", "?")]),
  .message (record "process_count" [.text "进程数：", parameter "count"] [("count", "0")]),
  .message (record "update_available" [.text "有新版本可用：", parameter "version"]
    [("version", "?")]),
  .message (record "dietpi_update" [.text "DietPi 有可用更新：", parameter "version"]
    [("version", "?")]),
  .message (record "footer_credit" [.text "DietPi 仪表盘 v", parameter "version", .text "，作者 ",
    parameter "author"] [("version", "?"), ("author", "ravenclaw900")])]

def builtIn : Catalog where
  en := some ⟨⟨.en, literals englishTexts⟩, ⟨.en, englishTemplateEntries⟩⟩
  zh := some ⟨⟨.zh, literals chineseTexts⟩, ⟨.zh, chineseTemplateEntries⟩⟩

end Contents

section Sources

-- Lines are read as they stand, so the characters of a source need not be put together first.
theorem toList_ofLines (lines : List String) :
    (ofLines lines).toList = lines.flatMap fun line => line.toList ++ ['\n'] := by
  simp [ofLines, String.toList_join, List.flatMap_map]

private theorem parse_englishMessages : parse englishMessages = some (literals englishTexts) := by
  simp only [parse, englishMessages, toList_ofLines]
  simp
  decide +kernel

private theorem parse_englishTemplates : parse englishTemplates = some englishTemplateEntries := by
  simp only [parse, englishTemplates, toList_ofLines]
  simp
  decide +kernel

private theorem parse_chineseMessages : parse chineseMessages = some (literals chineseTexts) := by
  simp only [parse, chineseMessages, toList_ofLines]
  simp
  decide +kernel

private theorem parse_chineseTemplates : parse chineseTemplates = some chineseTemplateEntries := by
  simp only [parse, chineseTemplates, toList_ofLines]
  simp
  decide +kernel

theorem standard_eq : standard = .ok builtIn := by
  have hem : readSource .en .message englishMessages = .ok ⟨.en, literals englishTexts⟩ :=
    readSource_eq parse_englishMessages (by decide +kernel)
  have het : readSource .en .template englishTemplates = .ok ⟨.en, englishTemplateEntries⟩ :=
    readSource_eq parse_englishTemplates (by decide +kernel)
  have hcm : readSource .zh .message chineseMessages = .ok ⟨.zh, literals chineseTexts⟩ :=
    readSource_eq parse_chineseMessages (by decide +kernel)
  have hct : readSource .zh .template chineseTemplates = .ok ⟨.zh, chineseTemplateEntries⟩ :=
    readSource_eq parse_chineseTemplates (by decide +kernel)
  have hen : readLocale ⟨.en, englishMessages, englishTemplates⟩ =
      .ok ⟨⟨.en, literals englishTexts⟩, ⟨.en, englishTemplateEntries⟩⟩ := readLocale_eq hem het
  have hzh : readLocale ⟨.zh, chineseMessages, chineseTemplates⟩ =
      .ok ⟨⟨.zh, literals chineseTexts⟩, ⟨.zh, chineseTemplateEntries⟩⟩ := readLocale_eq hcm hct
  simp only [standard, ofSources, standardSources, List.foldlM_cons, List.foldlM_nil, hen, hzh]
  rfl

end Sources

section Lookups

variable {c : Catalog} {l : Locale} {key text : String} {texts : List (String × String)}
  {entries : LocaleCatalog} {params : Params}

theorem message?_literals (hn : (texts.map Prod.fst).Nodup) (h : (key, text) ∈ texts) :
    Bundle.message? ⟨l, literals texts⟩ key = some (record key [.text text] []) := by
  have hnames : (literals texts).map Entry.name = texts.map Prod.fst := by
    simp [literals, record, Entry.name, Function.comp_def]
  refine (Bundle.message?_eq_some_iff (by rwa [hnames])).mpr ⟨?_, rfl⟩
  exact List.mem_map.mpr ⟨(key, text), h, rfl⟩

private theorem format_literal (b : Bundle) (arguments : Params) (text : String) :
    b.format arguments [.text text] = ⟨text, true⟩ :=
  b.format_literal? arguments (by simp [literal?])

-- A message of plain text says what it holds.
theorem message?_eq (he : c.get? l = some entries)
    (hm : entries.messages.message? key = some (record key [.text text] [])) :
    c.message? l key = some text := by
  simp [message?, he, hm, record, format_literal]

-- The message has a text in every locale, and in English this one.
structure Says (c : Catalog) (key text : String) : Prop where
  everywhere : ∀ l, c.lookupMessage l key none ≠ ""
  english : c.lookupMessage .en key none = text

-- The same of a template with its parameters.
structure Renders (c : Catalog) (key : String) (params : Params) (text : String) : Prop where
  everywhere : ∀ l, c.lookupTemplate l key params ≠ ""
  english : c.lookupTemplate .en key params = text

theorem says_of_texts {english chinese : String} (he : c.message? .en key = some english)
    (hc : c.message? .zh key = some chinese) (hne : english ≠ "") (hnc : chinese ≠ "") :
    c.Says key english := by
  constructor
  · intro l
    cases l <;> simpa [lookupMessage, orDefault, he, hc]
  · simp [lookupMessage, orDefault, he]

theorem renders_of_texts {english chinese : String} (he : c.template? .en key params = some english)
    (hc : c.template? .zh key params = some chinese) (hne : english ≠ "") (hnc : chinese ≠ "") :
    c.Renders key params english := by
  constructor
  · intro l
    cases l <;> simpa [lookupTemplate, orDefault, he, hc]
  · simp [lookupTemplate, orDefault, he]

end Lookups

section BuiltIn

variable {key text : String}

private theorem chinese_of_english : ∀ entry ∈ englishTexts, entry.2 ≠ "" ∧
    ∃ other ∈ chineseTexts, other.1 = entry.1 ∧ other.2 ≠ "" := by
  decide +kernel

theorem says_builtIn (h : (key, text) ∈ englishTexts) : builtIn.Says key text := by
  obtain ⟨hne, ⟨k, other⟩, hm, rfl, hnc⟩ := chinese_of_english _ h
  exact says_of_texts (message?_eq rfl (message?_literals (by decide +kernel) h))
    (message?_eq rfl (message?_literals (by decide +kernel) hm)) hne hnc

section Templates

variable {m m' : Message} {p p' : Pattern}

theorem renders_builtIn (key : String) (given : List (String × String))
    (he : builtIn.ownTemplate? .en key = some (m, p))
    (hc : builtIn.ownTemplate? .zh key = some (m', p')) (hf : Fillable m p ∧ Fillable m' p')
    (hne : substitute (supply m (Table.ofList given)) p ≠ "")
    (hnc : substitute (supply m' (Table.ofList given)) p' ≠ "") :
    builtIn.Renders key (Table.ofList given) (substitute (supply m (Table.ofList given)) p) := by
  have hnd := Table.nodup_ofList given
  exact renders_of_texts (template?_of_some he hf.1 hnd) (template?_of_some hc hf.2 hnd) hne hnc

theorem renders_update (version : String) :
    builtIn.Renders "dietpi_update" (Table.ofList [("version", version)])
      ("DietPi Update Available: " ++ version) := by
  have h := renders_builtIn "dietpi_update" [("version", version)] rfl rfl (by decide)
    (by simp [parameter]) (by simp [parameter])
  simpa [parameter, supply, Table.ofList, Table.set, List.lookup_cons, String.append_assoc] using h

theorem renders_credit (version author : String) :
    builtIn.Renders "footer_credit" (Table.ofList [("version", version), ("author", author)])
      ("DietPi Dashboard v" ++ version ++ " by " ++ author) := by
  have h := renders_builtIn "footer_credit" [("version", version), ("author", author)] rfl rfl
    (by decide) (by simp [parameter]) (by simp [parameter])
  simpa [parameter, supply, Table.ofList, Table.set, List.lookup_cons, String.append_assoc] using h

theorem renders_count (count : String) :
    builtIn.Renders "process_count" (Table.ofList [("count", count)])
      ("Processes: " ++ count) := by
  have h := renders_builtIn "process_count" [("count", count)] rfl rfl (by decide)
    (by simp [parameter]) (by simp [parameter])
  simpa [parameter, supply, Table.ofList, Table.set, List.lookup_cons, String.append_assoc] using h

theorem renders_page (page total : String) :
    builtIn.Renders "page_of" (Table.ofList [("page", page), ("totalPages", total)])
      ("Page " ++ page ++ " / " ++ total) := by
  have h := renders_builtIn "page_of" [("page", page), ("totalPages", total)] rfl rfl (by decide)
    (by simp [parameter]) (by simp [parameter])
  simpa [parameter, supply, Table.ofList, Table.set, List.lookup_cons, String.append_assoc] using h

end Templates
end BuiltIn
end PageLocalizer.Catalog
