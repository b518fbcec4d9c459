import PageLocalizer.Catalog.Basic
-- The catalogs that come with the dashboard.
namespace PageLocalizer.Catalog

def ofLines (lines : List String) : String := String.join (lines.map (· ++ "\n"))

def englishMessages : String := ofLines [
  "app_name = DietPi Dashboard",
  "save = Save",
  "cancel = Cancel",
  "language_switch = Switch language",
  "nav_toggle = Toggle navigation",
  "nav_close = Close navigation",
  "backend = Backend",
  "messages = Messages",
  "theme_toggle = Toggle dark mode",
  "nav_system = System",
  "nav_process = Processes",
  "nav_software = Software",
  "nav_service = Services",
  "nav_management = Management",
  "nav_terminal = Terminal",
  "nav_browser = File Browser",
  "process_title = Processes",
  "process_filter = Filter processes",
  "col_pid = PID",
  "col_name = Name",
  "col_status = Status",
  "col_cpu = CPU Usage",
  "col_ram = RAM Usage",
  "col_actions = Actions",
  "status_running = Running",
  "status_paused = Paused",
  "status_sleeping = Sleeping",
  "status_other = Other",
  "signal_kill = Kill process",
  "signal_term = Terminate process",
  "signal_resume = Resume process",
  "signal_pause = Pause process"]

def englishTemplates : String := ofLines [
  "page_of = Page \x7b $page \x7d / \x7b $totalPages \x7d",
  "    .page = ?",
  "    .totalPages = ?",
  "process_count = Processes: \x7b $count \x7d",
  "    .count = 0",
  "update_available = New version available: \x7b $version \x7d",
  "    .version = ?",
  "dietpi_update = DietPi Update Available: \x7b $version \x7d",
  "    .version = ?",
  "footer_credit = DietPi Dashboard v\x7b $version \x7d by \x7b $author \x7d",
  "    .version = ?",
  "    .author = ravenclaw900"]

def chineseMessages : String := ofLines [
  "app_name = DietPi 仪表盘",
  "save = 保存",
  "cancel = 取消",
  "language_switch = 切换语言",
  "nav_toggle = 切换导航",
  "nav_close = 关闭导航",
  "backend = 后端",
  "messages = 消息",
  "theme_toggle = 切换深色模式",
  "nav_system = 系统",
  "nav_process = 进程",
  "nav_software = 软件",
  "nav_service = 服务",
  "nav_management = 管理",
  "nav_terminal = 终端",
  "nav_browser = 文件浏览器",
  "process_title = 进程",
  "process_filter = 筛选进程",
  "col_pid = PID",
  "col_name = 名称",
  "col_status = 状态",
  "col_cpu = CPU 使用率",
  "col_ram = 内存使用",
  "col_actions = 操作",
  "status_running = 运行中",
  "status_paused = 已暂停",
  "status_sleeping = 休眠",
  "status_other = 其他",
  "signal_kill = 强制结束进程",
  "signal_term = 终止进程",
  "signal_resume = 恢复进程",
  "signal_pause = 暂停进程"]

def chineseTemplates : String := ofLines [
  "page_of = 第 \x7b $page \x7d / \x7b $totalPages \x7d 页",
  "    .page = ?",
  "    .totalPages = ?",
  "process_count = 进程数：\x7b $count \x7d",
  "    .count = 0",
  "update_available = 有新版本可用：\x7b $version \x7d",
  "    .version = ?",
  "dietpi_update = DietPi 有可用更新：\x7b $version \x7d",
  "    .version = ?",
  "footer_credit = DietPi 仪表盘 v\x7b $version \x7d，作者 \x7b $author \x7d",
  "    .version = ?",
  "    .author = ravenclaw900"]

def standardSources : List CatalogSource := [
  { locale := .en, messages := englishMessages, templates := englishTemplates },
  { locale := .zh, messages := chineseMessages, templates := chineseTemplates }]

def standard : Except CatalogError Catalog := ofSources standardSources

end PageLocalizer.Catalog
