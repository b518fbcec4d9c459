-- Where preferences and settings live.
--
-- A directory is taken from the first of these that gives one: an explicit choice, the command
-- line, an environment variable that is not empty, the platform's directory for the user.
namespace PageLocalizer

abbrev Environment := String → Option String

namespace Directories

def appName : String := "DashboardI18n"
def dataVariable : String := "DASHBOARD_I18N_DATA_DIR"
def configVariable : String := "DASHBOARD_I18N_CONFIG_DIR"
def homeVariable : String := "HOME"
def xdgDataVariable : String := "XDG_DATA_HOME"
def xdgConfigVariable : String := "XDG_CONFIG_HOME"

def variableNames : List String :=
  [dataVariable, configVariable, homeVariable, xdgDataVariable, xdgConfigVariable]

def preferencesFile : String := "preferences.toml"
def settingsFile : String := "settings.toml"

-- A separator goes between unless the base is empty or ends in one.
def join (base name : String) : String :=
  match base.toList.getLast? with
  | none => name
  | some '/' => base ++ name
  | some _ => base ++ "/" ++ name

-- An XDG variable counts only when it holds an absolute path.
def absolute? (path : String) : Option String :=
  match path.toList with
  | '/' :: _ => some path
  | _ => none

def home? (env : Environment) : Option String := (env homeVariable).filter (· ≠ "")

def platformData? (env : Environment) : Option String :=
  ((env xdgDataVariable).bind absolute?).or ((home? env).map (join · ".local/share"))

def platformConfig? (env : Environment) : Option String :=
  ((env xdgConfigVariable).bind absolute?).or ((home? env).map (join · ".config"))

-- The directories named on the command line. The first announcement stays.
structure Announced where
  data : Option String
  config : Option String
  deriving Repr, DecidableEq

-- Later announcements are ignored, also for a directory that the first one left open.
def announce (current : Option Announced) (data config : Option String) : Option Announced :=
  current.or (some { data, config })

def resolve (chosen announced inherited platform : Option String) : Option String :=
  (chosen.or announced).or
    ((inherited.filter (· ≠ "")).or (platform.map (join · appName)))

def data? (env : Environment) (announced : Option Announced) (chosen : Option String) :
    Option String :=
  resolve chosen (announced.bind (·.data)) (env dataVariable) (platformData? env)

def config? (env : Environment) (announced : Option Announced) (chosen : Option String) :
    Option String :=
  resolve chosen (announced.bind (·.config)) (env configVariable) (platformConfig? env)

def preferences? (env : Environment) (announced : Option Announced) (chosen : Option String) :
    Option String :=
  (data? env announced chosen).map (join · preferencesFile)

def settings? (env : Environment) (announced : Option Announced) (chosen : Option String) :
    Option String :=
  (config? env announced chosen).map (join · settingsFile)

end Directories
end PageLocalizer
