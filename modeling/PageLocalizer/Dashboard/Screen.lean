-- The screens of the dashboard.
namespace PageLocalizer.Dashboard

inductive Screen where
  | system
  | process
  | software
  | service
  | management
  | terminal
  | browser
  deriving Repr, DecidableEq, Inhabited

namespace Screen

-- Every screen, in the order of the navigation.
def all : List Screen := [.system, .process, .software, .service, .management, .terminal, .browser]

def path : Screen → String
  | .system => "/system"
  | .process => "/process"
  | .software => "/software"
  | .service => "/service"
  | .management => "/management"
  | .terminal => "/terminal"
  | .browser => "/browser"

def messageKey : Screen → String
  | .system => "nav_system"
  | .process => "nav_process"
  | .software => "nav_software"
  | .service => "nav_service"
  | .management => "nav_management"
  | .terminal => "nav_terminal"
  | .browser => "nav_browser"

def label : Screen → String
  | .system => "System"
  | .process => "Processes"
  | .software => "Software"
  | .service => "Services"
  | .management => "Management"
  | .terminal => "Terminal"
  | .browser => "File Browser"

def icon : Screen → String
  | .system => "fa6-solid-gauge"
  | .process => "fa6-solid-microchip"
  | .software => "fa6-solid-database"
  | .service => "fa6-solid-list"
  | .management => "fa6-solid-user"
  | .terminal => "fa6-solid-terminal"
  | .browser => "fa6-solid-folder"

end Screen
end PageLocalizer.Dashboard
